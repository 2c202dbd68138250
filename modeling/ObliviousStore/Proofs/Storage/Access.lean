/-
  An access changes one bucket or nothing (`access_atomic`).

  Whatever the engine answers and the change makes of the bucket, a failure
  leaves the backend as it was, and a success replaces the bucket at the address
  alone (`Replaces`), by the packed form of what the change left, encrypted.
-/
import ObliviousStore.Proofs.Block.Sealing
import ObliviousStore.Proofs.Storage.Basic
import ObliviousStore.Storage.Sqrt
import ObliviousStore.Storage.Tree

namespace ObliviousStore.Storage

variable {S A E β : Type} {size : Nat} [Backend S A] {a : A} {s s' : S}

/-- `s'` is `s` with the bucket at an occupied address replaced by `p`, and nothing
    else changed: no other bucket, no address and no parameter. -/
structure Replaces (s : S) (a : A) (p : PackedBucket) (s' : S) : Prop where
  eq_put : s' = Backend.put s a p
  inRange : Backend.inRange s a
  occupied : (Backend.slot s a).isSome
  slot_self : Backend.slot s' a = some p
  slot_of_ne : ∀ b, b ≠ a → Backend.slot s' b = Backend.slot s b
  occupied_iff : ∀ b, (Backend.slot s' b).isSome ↔ (Backend.slot s b).isSome
  metadata_eq : Backend.metadata s' = Backend.metadata s
  inRange_eq : ∀ b, Backend.inRange s' b = Backend.inRange s b

theorem replaces_put {p : PackedBucket} (hin : Backend.inRange s a)
    (hocc : (Backend.slot s a).isSome) : Replaces s a p (Backend.put s a p) where
  eq_put := rfl
  inRange := hin
  occupied := hocc
  slot_self := Backend.slot_put_self hin
  slot_of_ne _ h := Backend.slot_put_of_ne h
  occupied_iff b := by
    by_cases hb : b = a
    · subst hb
      rw [Backend.slot_put_self hin]
      exact iff_of_true rfl hocc
    · rw [Backend.slot_put_of_ne hb]
  metadata_eq := Backend.metadata_put
  inRange_eq _ := Backend.inRange_put

variable [CryptoEngine E] {e e' : E} {change : Bucket size → β × Bucket size}

/-- An access that gets as far as the change goes on by writing what it left. -/
theorem run_access_of_readPlain {plain : Bucket size} {l : List Event}
    (h : (readPlain size a).run (s, e) = ⟨.ok plain, (s, e'), l⟩) :
    (access a change).run (s, e) =
      ⟨((writePlain a (change plain).2).run (s, e')).result.map fun _ => (change plain).1,
        ((writePlain a (change plain).2).run (s, e')).state,
        l ++ ((writePlain a (change plain).2).run (s, e')).log⟩ := by
  rw [access, Op.run_bind, h]
  simp only [Op.run_bind]
  rcases (writePlain a (change plain).2).run (s, e') with ⟨err | u, st, l'⟩
  · rfl
  · simp only [Op.run_pure, List.append_nil]
    rfl

/-- An access reads, lets the change happen and writes: it stops at the reading
    and leaves the backend alone, or what it does is what the writing does. -/
theorem access_cases {r : Except StoreError β} {l : List Event}
    (h : (access a change).run (s, e) = ⟨r, (s', e'), l⟩) :
    (∃ err, r = .error err ∧ s' = s) ∨
    ∃ plain e₁ r₂ l₁ l₂, (readPlain size a).run (s, e) = ⟨.ok plain, (s, e₁), l₁⟩ ∧
      (writePlain a (change plain).2).run (s, e₁) = ⟨r₂, (s', e'), l₂⟩ ∧
      r = r₂.map fun _ => (change plain).1 := by
  have hkeep := state_readPlain size a s e
  rcases hp : (readPlain size a).run (s, e) with ⟨err | plain, ⟨s₁, e₁⟩, l₁⟩
  · rw [hp] at hkeep
    rw [access, Op.run_bind, hp, Outcome.mk.injEq, Prod.mk.injEq] at h
    exact .inl ⟨err, h.1.symm, h.2.1.1.symm.trans hkeep⟩
  · rw [hp] at hkeep
    obtain rfl : s₁ = s := hkeep
    rcases hw : (writePlain a (change plain).2).run (s₁, e₁) with ⟨r₂, ⟨s₂, e₂⟩, l₂⟩
    rw [run_access_of_readPlain hp, hw, Outcome.mk.injEq, Prod.mk.injEq] at h
    obtain ⟨rfl, ⟨rfl, rfl⟩, -⟩ := h
    exact .inr ⟨plain, e₁, r₂, l₁, l₂, rfl, hw, rfl⟩

/-- An access that fails leaves the backend as it is. -/
theorem state_of_access_error {err : StoreError} {l : List Event}
    (h : (access a change).run (s, e) = ⟨.error err, (s', e'), l⟩) : s' = s := by
  rcases access_cases h with ⟨_, -, hs⟩ | ⟨plain, e₁, r₂, l₁, l₂, -, hw, hr⟩
  · exact hs
  · rcases writePlain_cases hw with ⟨_, -, hs⟩ | ⟨_, _, _, rfl, -⟩
    · exact hs
    · exact absurd hr (by simp [Except.map])

/-- Once the blocks were decrypted and encrypted again, their number decides. -/
theorem result_access {plain sealed : Bucket size} {e₁ e₂ : E} {l₁ l₂ : List Event}
    (hp : (readPlain size a).run (s, e) = ⟨.ok plain, (s, e₁), l₁⟩)
    (hseal : (Op.forEach Block.encrypt).run ((change plain).2, e₁) =
      ⟨.ok (), (sealed, e₂), l₂⟩) :
    ((access a change).run (s, e)).result =
      if (change plain).2.length = (Backend.metadata s).bucketSize then .ok (change plain).1
      else .error (.invalidBucketLength (Backend.metadata s).bucketSize
        (change plain).2.length) := by
  obtain ⟨bucket, l₃, hread⟩ := read_of_readPlain hp
  obtain ⟨hin, -⟩ := slot_of_read hread
  have hlength : sealed.length = (change plain).2.length := by
    have hkeep := Op.length_forEach (x := Block.encrypt) (change plain).2 e₁
    rwa [hseal] at hkeep
  rw [run_access_of_readPlain hp, run_writePlain_of_encrypt_ok hseal,
    run_write (Bucket.pack_eq_ok sealed), if_pos hin, hlength]
  split <;> rfl

theorem keeps_access {I : E → Prop} (hd : Op.Keeps (fun st => I st.2) (@Block.decrypt size E _))
    (he : Op.Keeps (fun st => I st.2) (@Block.encrypt size E _)) (a : A)
    (change : Bucket size → β × Bucket size) :
    Op.Keeps (fun st : S × E => I st.2) (access a change) :=
  .bind (keeps_readPlain hd a) fun plain =>
    .bind (keeps_writePlain he a (change plain).2) fun _ => .pure _ (change plain).1

/-! ## Buckets of one block -/

/-- A packed block is read back from where it is put. -/
theorem exists_run_read_put {t : S} {b : Block size} (hin : Backend.inRange t a)
    (hkind : b.header.kind.Canonical) (hfit : wireSize size ≤ Bytes.maxLength) :
    ∃ p, Bucket.pack [b] = .ok p ∧ (read size a).run (Backend.put t a p) =
      ⟨.ok [b], Backend.put t a p, [.physicalRead (Backend.location S a)]⟩ := by
  have hpack := Bucket.pack_eq_ok [b]
  have hunpack := PackedBucket.unpack_pack (List.cons_ne_nil b [])
    (by rwa [List.length_singleton, Nat.one_mul]) hpack
  rw [List.map_singleton, Block.canonical_eq_self hkind] at hunpack
  exact ⟨_, hpack,
    run_read_of_slot (Backend.inRange_put.trans hin) (Backend.slot_put_self hin) hunpack⟩

/-- A block is placed on its own, and read back in the clear. -/
theorem exists_placed_one_block {e : AesGcmEngine} {t : S} {b : Block size}
    (hin : Backend.inRange t a) (hsize : (Backend.metadata t).bucketSize = 1)
    (hlimit : e.tape.limit = none) (hkind : b.header.kind.Canonical)
    (hfit : wireSize size ≤ Bytes.maxLength) :
    ∃ c p e' l, (writePlain a [b]).run (t, e) = ⟨.ok (), (Backend.put t a p, e'), l⟩ ∧
      e'.tape.limit = none ∧ Block.SealedUnder e.cipher b c ∧
      (readPlain size a).run (Backend.put t a p, e') =
        ⟨.ok [c.withData b.data], (Backend.put t a p, e'),
          [.physicalRead (Backend.location S a)]⟩ := by
  obtain ⟨c, e', hrun, hlimit'⟩ := Block.exists_run_encrypt b hlimit
  obtain ⟨hsealed, hkey⟩ := Block.sealedUnder_of_run_encrypt hrun
  obtain ⟨p, hpack, hread⟩ := exists_run_read_put (b := c) hin (by rwa [hsealed.kind_eq]) hfit
  have hwrite := run_writePlain_of_encrypt_ok (Op.run_forEach_singleton hrun) a t
  rw [run_write hpack, hsize, if_pos (show [c].length = 1 from rfl), if_pos hin] at hwrite
  refine ⟨c, p, e', _, hwrite, hlimit', hsealed, ?_⟩
  rw [← AesGcmEngine.cipher_eq_of_key_eq hkey] at hsealed
  rw [run_readPlain hread, Op.run_within,
    Op.run_forEach_singleton (Block.run_decrypt_of_sealedUnder hsealed)]
  rfl

/-- A tree can hold a bucket of one dummy at its root. -/
theorem exists_readPlain_one_dummy : ∃ t : TreeStorage, (Backend.metadata t).bucketSize = 1 ∧
    Backend.inRange t (⟨0, 0⟩ : TreeTag) ∧ ∀ e : AesGcmEngine,
      (readPlain 1 (⟨0, 0⟩ : TreeTag)).run (t, e) =
        ⟨.ok [Block.empty 1], (t, e), [.physicalRead (.node ⟨0, 0⟩)]⟩ := by
  let t : TreeStorage := ⟨⟨0, 1, 1, "tree", .tree⟩, 0, ∅⟩
  obtain ⟨p, -, hread⟩ := exists_run_read_put (t := t) (a := ⟨0, 0⟩) (b := Block.empty 1) rfl
    (by decide) (by decide)
  refine ⟨Backend.put t ⟨0, 0⟩ p, rfl, rfl, fun e => ?_⟩
  rw [run_readPlain hread, Op.run_within,
    Op.run_forEach_singleton (Block.run_decrypt_of_not_isNormal (by decide) e)]
  rfl

/-! ## The theorem -/

/-- **An access is atomic and touches one address.**  A failure leaves the whole
    backend as it was.  A success is at an occupied address and replaces its
    bucket alone, by the packed form of what the change left with every block
    encrypted.  Once the blocks could be decrypted and encrypted again, nothing
    but a wrong number of blocks makes the access fail. -/
theorem access_atomic (a : A) (change : Bucket size → β × Bucket size) (s : S) (e : E) :
    (∀ err s' e' l, (access a change).run (s, e) = ⟨.error err, (s', e'), l⟩ → s' = s) ∧
    (∀ r s' e' l, (access a change).run (s, e) = ⟨.ok r, (s', e'), l⟩ →
      ∃ plain e₁ l₁ sealed l₂ p, (readPlain size a).run (s, e) = ⟨.ok plain, (s, e₁), l₁⟩ ∧
        r = (change plain).1 ∧
        (Op.forEach Block.encrypt).run ((change plain).2, e₁) = ⟨.ok (), (sealed, e'), l₂⟩ ∧
        sealed.length = (Backend.metadata s).bucketSize ∧ Bucket.pack sealed = .ok p ∧
        Replaces s a p s') ∧
    (∀ plain e₁ l₁ sealed e₂ l₂, (readPlain size a).run (s, e) = ⟨.ok plain, (s, e₁), l₁⟩ →
      (Op.forEach Block.encrypt).run ((change plain).2, e₁) = ⟨.ok (), (sealed, e₂), l₂⟩ →
      ((access a change).run (s, e)).result =
        if (change plain).2.length = (Backend.metadata s).bucketSize then .ok (change plain).1
        else .error (.invalidBucketLength (Backend.metadata s).bucketSize
          (change plain).2.length)) := by
  refine ⟨fun err s' e' l h => state_of_access_error h, fun r s' e' l h => ?_,
    fun plain e₁ l₁ sealed e₂ l₂ hp he => result_access hp he⟩
  rcases access_cases h with ⟨_, hr, -⟩ | ⟨plain, e₁, r₂, l₁, l₂, hp, hw, hr⟩
  · exact absurd hr (by simp)
  · rcases writePlain_cases hw with ⟨_, rfl, -⟩ | ⟨sealed, p, l', rfl, he, hlength, hpack, hin, rfl⟩
    · exact absurd hr (by simp [Except.map])
    · obtain ⟨bucket, l₃, hread⟩ := read_of_readPlain hp
      obtain ⟨-, q, hslot, -⟩ := slot_of_read hread
      have hocc : (Backend.slot s a).isSome := by rw [hslot]; rfl
      exact ⟨plain, e₁, l₁, sealed, l', p, hp, Except.ok.inj hr, he, hlength, hpack,
        replaces_put hin hocc⟩

/-- A bucket of one encrypted block at the root of a tree: an access that changes the
    payload replaces the bucket, one that drops the block fails and replaces nothing. -/
theorem access_atomic_one_block :
    let e : AesGcmEngine := ⟨⟨Vector.replicate keySize 0⟩, ⟨fun _ => 0, none, 0⟩⟩
    let a : TreeTag := ⟨0, 0⟩
    let b : Block 1 := .new 7 .normal #v[0xAB]
    let rewrite : Bucket 1 → Nat × Bucket 1 := fun bucket =>
      (bucket.length, bucket.map fun c => c.withData #v[0xCD])
    let drop : Bucket 1 → Unit × Bucket 1 := fun _ => ((), [])
    ∃ (t₀ t : TreeStorage) (e₁ : AesGcmEngine) (plain : Block 1) (l l₁ : List Event),
      ((TreeStorage.create 0 0 1 "tree").run ()).result = .ok t₀ ∧
      (writePlain a [b]).run (t₀, e) = ⟨.ok (), (t, e₁), l⟩ ∧
      (readPlain 1 a).run (t, e₁) = ⟨.ok [plain], (t, e₁), l₁⟩ ∧
      plain.isNormal ∧ plain.data = b.data ∧
      (∃ p t' e' l, (access a rewrite).run (t, e₁) = ⟨.ok 1, (t', e'), l⟩ ∧ Replaces t a p t') ∧
      ∃ e' l, (access a drop).run (t, e₁) = ⟨.error (.invalidBucketLength 1 0), (t, e'), l⟩ := by
  intro e a b rewrite drop
  let t₀ : TreeStorage := ⟨⟨0, TreeStorage.nodeCount 0, 1, "tree", .tree⟩, 0, ∅⟩
  obtain ⟨c, q, e₁, l, hwrite, hlimit, hsealed, hplain⟩ :=
    exists_placed_one_block (t := t₀) (a := a) (b := b) (e := e) rfl rfl rfl (by decide)
      (by decide)
  let t : TreeStorage := Backend.put t₀ a q
  obtain ⟨c', e₂, hseal, -⟩ := Block.exists_run_encrypt (c.withData #v[0xCD]) hlimit
  refine ⟨t₀, t, e₁, c.withData b.data, l, _, rfl, hwrite, hplain, hsealed.isNormal_iff.2 rfl, rfl,
    ?_, ?_⟩
  · have hresult : ((access a rewrite).run (t, e₁)).result = .ok 1 :=
      (access_atomic a rewrite t e₁).2.2 _ e₁ _ [c'] e₂ [] hplain (Op.run_forEach_singleton hseal)
    obtain ⟨⟨t', e'⟩, l, hrun⟩ := Op.exists_run_eq hresult
    obtain ⟨-, -, -, -, -, p, -, -, -, -, -, hp⟩ :=
      (access_atomic a rewrite t e₁).2.1 1 t' e' l hrun
    exact ⟨p, t', e', l, hrun, hp⟩
  · have hresult : ((access a drop).run (t, e₁)).result = .error (.invalidBucketLength 1 0) :=
      (access_atomic a drop t e₁).2.2 _ e₁ _ [] e₁ [] hplain (Op.run_forEach_nil e₁)
    obtain ⟨⟨t', e'⟩, l, hrun⟩ := Op.exists_run_eq hresult
    obtain rfl : t' = t := (access_atomic a drop t e₁).1 _ t' e' l hrun
    exact ⟨e', l, hrun⟩

end ObliviousStore.Storage
