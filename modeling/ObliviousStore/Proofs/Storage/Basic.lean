/-
  Runs of the operations on a backend — what each of them fetches, and when it
  changes the backend.

  A reading changes nothing (`run_read`, `state_readPlain`); a writing replaces
  the bucket at its address or fails and changes nothing (`run_write`,
  `writePlain_cases`).
-/
import ObliviousStore.Proofs.Bucket.Packing
import ObliviousStore.Proofs.Op
import ObliviousStore.Storage.Basic

namespace ObliviousStore.Storage

variable {S A E : Type} {size : Nat} [Backend S A] {a : A} {s s' : S}

/-! ## Reading -/

theorem run_fetch (a : A) (s : S) :
    (fetch a).run s =
      if Backend.inRange s a then
        ⟨(Backend.slot s a).elim (.error .bucketNotFound) .ok, s,
          [.physicalRead (Backend.location S a)]⟩
      else ⟨.error .addressOutOfBounds, s, []⟩ := by
  simp only [fetch, Op.run_bind, Op.run_get]
  split
  · cases Backend.slot s a with
    | none => rfl
    | some p => rfl
  · rfl

theorem run_read (a : A) (s : S) :
    (read size a).run s =
      ⟨((fetch a).run s).result.bind fun p => p.unpack size, s, ((fetch a).run s).log⟩ := by
  have hstate : ((fetch a).run s).state = s := by
    rw [run_fetch]
    split <;> rfl
  rw [read, Op.run_bind]
  rcases hf : (fetch a).run s with ⟨err | p, s₁, l⟩
  · rw [hf] at hstate
    subst hstate
    rfl
  · rw [hf] at hstate
    subst hstate
    simp only [Op.run_ofExcept, List.append_nil]
    rfl

/-- Only an occupied address can be read. -/
theorem slot_of_read {bucket : Bucket size} {l : List Event}
    (h : (read size a).run s = ⟨.ok bucket, s', l⟩) :
    Backend.inRange s a ∧ ∃ p, Backend.slot s a = some p ∧ p.unpack size = .ok bucket := by
  rw [run_read, run_fetch, Outcome.mk.injEq] at h
  obtain ⟨hr, -⟩ := h
  by_cases hin : Backend.inRange s a
  · rw [if_pos hin] at hr
    cases hslot : Backend.slot s a with
    | none =>
      rw [hslot] at hr
      exact absurd hr (by simp [Except.bind])
    | some p =>
      rw [hslot] at hr
      exact ⟨hin, p, rfl, hr⟩
  · rw [if_neg hin] at hr
    exact absurd hr (by simp [Except.bind])

/-- The bucket at an occupied address is read. -/
theorem run_read_of_slot {bucket : Bucket size} {p : PackedBucket} (hin : Backend.inRange s a)
    (hslot : Backend.slot s a = some p) (hp : p.unpack size = .ok bucket) :
    (read size a).run s = ⟨.ok bucket, s, [.physicalRead (Backend.location S a)]⟩ := by
  rw [run_read, run_fetch, if_pos hin, hslot]
  simp only [Option.elim, Except.bind, hp]

/-! ## Writing -/

theorem run_write {bucket : Bucket size} {p : PackedBucket} (hp : Bucket.pack bucket = .ok p)
    (a : A) (s : S) :
    (write a bucket).run s =
      if bucket.length = (Backend.metadata s).bucketSize then
        if Backend.inRange s a then
          ⟨.ok (), Backend.put s a p, [.physicalWrite (Backend.location S a)]⟩
        else ⟨.error .addressOutOfBounds, s, []⟩
      else ⟨.error (.invalidBucketLength (Backend.metadata s).bucketSize bucket.length), s, []⟩ := by
  simp only [write, Op.run_bind, Op.run_get]
  split
  · simp only [Op.run_bind, hp, Op.run_ofExcept, store, Op.run_get]
    split <;> rfl
  · rfl

/-! ## Readings and writings in the clear -/

section engine

variable [CryptoEngine E] {e e' : E}

/-- A reading in the clear leaves the backend as it is. -/
theorem state_readPlain (size : Nat) (a : A) (s : S) (e : E) :
    ((readPlain size a).run (s, e)).state.1 = s := by
  rw [readPlain, Op.run_bind, Op.run_onFst, run_read]
  rcases ((fetch a).run s).result.bind fun p => p.unpack size with err | bucket <;> rfl

theorem run_readPlain {bucket : Bucket size} {l : List Event}
    (h : (read size a).run s = ⟨.ok bucket, s, l⟩) (e : E) :
    (readPlain size a).run (s, e) =
      ⟨((Op.within bucket (Op.forEach Block.decrypt)).run e).result,
        (s, ((Op.within bucket (Op.forEach Block.decrypt)).run e).state),
        l ++ ((Op.within bucket (Op.forEach Block.decrypt)).run e).log⟩ := by
  rw [readPlain, Op.run_bind, Op.run_onFst, h]
  rfl

theorem read_of_readPlain {plain : Bucket size} {l : List Event}
    (h : (readPlain size a).run (s, e) = ⟨.ok plain, (s', e'), l⟩) :
    ∃ bucket l', (read size a).run s = ⟨.ok bucket, s, l'⟩ := by
  rw [readPlain, Op.run_bind, Op.run_onFst] at h
  rw [run_read] at h ⊢
  rcases hr : ((fetch a).run s).result.bind fun p => p.unpack size with err | bucket
  · rw [hr, Outcome.mk.injEq] at h
    exact absurd h.1 (by simp)
  · exact ⟨bucket, _, rfl⟩

theorem run_writePlain_of_encrypt_error {bucket left : Bucket size} {err : StoreError}
    {l : List Event}
    (h : (Op.forEach Block.encrypt).run (bucket, e) = ⟨.error err, (left, e'), l⟩) (a : A) (s : S) :
    (writePlain a bucket).run (s, e) = ⟨.error err, (s, e'), l⟩ := by
  rw [writePlain, Op.run_bind, Op.run_onSnd, Op.run_within, h]
  rfl

theorem run_writePlain_of_encrypt_ok {bucket sealed : Bucket size} {l : List Event}
    (h : (Op.forEach Block.encrypt).run (bucket, e) = ⟨.ok (), (sealed, e'), l⟩) (a : A) (s : S) :
    (writePlain a bucket).run (s, e) =
      ⟨((write a sealed).run s).result, (((write a sealed).run s).state, e'),
        l ++ ((write a sealed).run s).log⟩ := by
  rw [writePlain, Op.run_bind, Op.run_onSnd, Op.run_within, h]
  rfl

/-- What a writing in the clear does: it fails and leaves the backend as it is, or
    it seals every block and replaces the bucket at its address. -/
theorem writePlain_cases {bucket : Bucket size} {r : Except StoreError Unit} {l : List Event}
    (h : (writePlain a bucket).run (s, e) = ⟨r, (s', e'), l⟩) :
    (∃ err, r = .error err ∧ s' = s) ∨
    ∃ sealed p l', r = .ok () ∧
      (Op.forEach Block.encrypt).run (bucket, e) = ⟨.ok (), (sealed, e'), l'⟩ ∧
      sealed.length = (Backend.metadata s).bucketSize ∧ Bucket.pack sealed = .ok p ∧
      Backend.inRange s a ∧ s' = Backend.put s a p := by
  rcases he : (Op.forEach Block.encrypt).run (bucket, e) with ⟨err | u, ⟨sealed, e₁⟩, l₁⟩
  · rw [run_writePlain_of_encrypt_error he, Outcome.mk.injEq, Prod.mk.injEq] at h
    obtain ⟨rfl, ⟨rfl, -⟩, -⟩ := h
    exact .inl ⟨err, rfl, rfl⟩
  · have hp := Bucket.pack_eq_ok sealed
    rw [run_writePlain_of_encrypt_ok he, run_write hp, Outcome.mk.injEq, Prod.mk.injEq] at h
    obtain ⟨hr, ⟨hs, rfl⟩, -⟩ := h
    by_cases hlength : sealed.length = (Backend.metadata s).bucketSize
    · by_cases hin : Backend.inRange s a
      · rw [if_pos hlength, if_pos hin] at hr hs
        exact .inr ⟨sealed, _, l₁, hr.symm, rfl, hlength, hp, hin, hs.symm⟩
      · rw [if_pos hlength, if_neg hin] at hr hs
        exact .inl ⟨_, hr.symm, hs.symm⟩
    · rw [if_neg hlength] at hr hs
      exact .inl ⟨_, hr.symm, hs.symm⟩

/-! ### The engine -/

theorem keeps_readPlain {I : E → Prop} (h : Op.Keeps (fun st => I st.2) (@Block.decrypt size E _))
    (a : A) : Op.Keeps (fun st : S × E => I st.2) (readPlain size a) :=
  .bind (.onFst I _) fun stored => .onSnd (.within (.forEach h) stored)

theorem keeps_writePlain {I : E → Prop} (h : Op.Keeps (fun st => I st.2) (@Block.encrypt size E _))
    (a : A) (bucket : Bucket size) : Op.Keeps (fun st : S × E => I st.2) (writePlain a bucket) :=
  .bind (.onSnd (.within (.forEach h) bucket)) fun _ => .onFst I _

end engine

end ObliviousStore.Storage
