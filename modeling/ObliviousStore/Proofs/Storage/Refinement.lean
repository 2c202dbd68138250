/-
  Encrypted storage is a map in the clear.

  A client that keeps a backend of its own, and places and changes buckets with
  one engine, may think of it as a map from addresses to the contents of buckets
  (`PlainMap`): `Reached` runs the two side by side, and in every state reached
  the map tells what every reading gives and which accesses succeed
  (`Represents`, `refines_plain_map`).

  What carries the induction is that each slot holds the packed form of blocks
  sealed under the engine's key (`Holds`).
-/
import Mathlib.Logic.Function.Basic
import ObliviousStore.Proofs.Bucket.Sealing
import ObliviousStore.Proofs.Storage.Access

namespace ObliviousStore.Storage

variable {S A : Type} {size : Nat} [Backend S A]

/-! ## Runs beside a map -/

/-- A backend in the clear: the contents of the bucket at each occupied address. -/
abbrev PlainMap (A : Type) (size : Nat) : Type := A → Option (List (Content size))

/-- A bucket that survives being stored: its types are read back as they are, and,
    as for every list of blocks that memory can hold, a buffer has room for its
    wire form. -/
structure Storable (bucket : Bucket size) : Prop where
  kind : ∀ b ∈ bucket, b.header.kind.Canonical
  fits : bucket.length * wireSize size ≤ Bytes.maxLength

/-- The states that placing and accessing buckets reaches from the backend `t` and
    the engine `e`, each beside the map that the same calls make of the empty one.
    A call that fails leaves the map alone, whatever it was called with. -/
inductive Reached [DecidableEq A] (t : S) (e : AesGcmEngine) :
    S × AesGcmEngine → PlainMap A size → Prop where
  | start : Reached t e (t, e) fun _ => none
  | placed {st st' : S × AesGcmEngine} {m : PlainMap A size} {a : A} {bucket : Bucket size}
      {l : List Event} (h : Reached t e st m) (hb : Storable bucket)
      (hrun : (writePlain a bucket).run st = ⟨.ok (), st', l⟩) :
      Reached t e st' (Function.update m a (some (Bucket.contents bucket)))
  | placeFailed {st st' : S × AesGcmEngine} {m : PlainMap A size} {a : A} {bucket : Bucket size}
      {err : StoreError} {l : List Event} (h : Reached t e st m)
      (hrun : (writePlain a bucket).run st = ⟨.error err, st', l⟩) : Reached t e st' m
  | accessed {st st' st₁ : S × AesGcmEngine} {m : PlainMap A size} {a : A} {β : Type} {r : β}
      {change : Bucket size → β × Bucket size} {plain : Bucket size} {l l₁ : List Event}
      (h : Reached t e st m) (hplain : (readPlain size a).run st = ⟨.ok plain, st₁, l₁⟩)
      (hb : Storable (change plain).2) (hrun : (access a change).run st = ⟨.ok r, st', l⟩) :
      Reached t e st' (Function.update m a (some (Bucket.contents (change plain).2)))
  | accessFailed {st st' : S × AesGcmEngine} {m : PlainMap A size} {a : A} {β : Type}
      {change : Bucket size → β × Bucket size} {err : StoreError} {l : List Event}
      (h : Reached t e st m) (hrun : (access a change).run st = ⟨.error err, st', l⟩) :
      Reached t e st' m

/-- The map tells what is in the backend: which addresses are occupied, what a
    reading gives there, and what an access hands to its change, which is never
    asked about anything else.  An access to an occupied address succeeds if what
    its change leaves can be encrypted and has the right number of blocks. -/
structure Represents (m : PlainMap A size) (st : S × AesGcmEngine) : Prop where
  occupied_iff : ∀ a, (Backend.slot st.1 a).isSome ↔ (m a).isSome
  read : ∀ a contents, m a = some contents → ∃ plain,
    (readPlain size a).run st = ⟨.ok plain, st, [.physicalRead (Backend.location S a)]⟩ ∧
      Bucket.contents plain = contents
  handed : ∀ {β : Type} (a : A) (change change' : Bucket size → β × Bucket size),
    (∀ plain, m a = some (Bucket.contents plain) → change plain = change' plain) →
    (access a change).run st = (access a change').run st
  answered : ∀ {β : Type} (a : A) (change : Bucket size → β × Bucket size) contents,
    m a = some contents → ∃ plain, Bucket.contents plain = contents ∧ ∀ sealed e' l,
      (Op.forEach Block.encrypt).run ((change plain).2, st.2) = ⟨.ok (), (sealed, e'), l⟩ →
      ((access a change).run st).result =
        if (change plain).2.length = (Backend.metadata st.1).bucketSize then .ok (change plain).1
        else .error (.invalidBucketLength (Backend.metadata st.1).bucketSize
          (change plain).2.length)

/-! ## The invariant -/

/-- A slot holds what the map says, sealed and packed. -/
def Holds (cipher : CipherBlock → CipherBlock) (s : S) (a : A) :
    Option (List (Content size)) → Prop
  | none => Backend.slot s a = none
  | some contents => Backend.inRange s a ∧ ∃ p bucket sealed, Backend.slot s a = some p ∧
      p.unpack size = .ok sealed ∧ List.Forall₂ (Block.SealedUnder cipher) bucket sealed ∧
      Bucket.contents bucket = contents

/-- What every call keeps: the key, the number of blocks in a bucket, which is not
    0, and that every slot holds what the map says. -/
structure Invariant (e : AesGcmEngine) (st : S × AesGcmEngine) (m : PlainMap A size) : Prop where
  key_eq : st.2.key = e.key
  bucketSize_ne : (Backend.metadata st.1).bucketSize ≠ 0
  holds : ∀ a, Holds e.cipher st.1 a (m a)

variable {e e₁ e₂ : AesGcmEngine} {s s' : S} {st st' st₁ : S × AesGcmEngine}
  {m : PlainMap A size} {a : A}

theorem Invariant.withEngine (h : Invariant e (s, e₁) m) (hkey : e₂.key = e.key) :
    Invariant e (s, e₂) m := ⟨hkey, h.bucketSize_ne, h.holds⟩

theorem Holds.of_slot_eq {cipher : CipherBlock → CipherBlock} {o : Option (List (Content size))}
    (h : Holds cipher s a o) (hslot : Backend.slot s' a = Backend.slot s a)
    (hin : Backend.inRange s' a = Backend.inRange s a) : Holds cipher s' a o := by
  cases o with
  | none => exact hslot.trans h
  | some contents =>
    obtain ⟨hi, p, bucket, sealed, hs, hrest⟩ := h
    exact ⟨hin.trans hi, p, bucket, sealed, hslot.trans hs, hrest⟩

/-- A sealed bucket at an address is read back and decrypted. -/
theorem run_readPlain_of_holds {contents : List (Content size)}
    (h : Holds e.cipher s a (some contents)) (hkey : e₁.key = e.key) :
    ∃ plain, (readPlain size a).run (s, e₁) =
        ⟨.ok plain, (s, e₁), [.physicalRead (Backend.location S a)]⟩ ∧
      Bucket.contents plain = contents := by
  obtain ⟨hin, p, bucket, sealed, hslot, hunpack, hsealed, rfl⟩ := h
  rw [← AesGcmEngine.cipher_eq_of_key_eq hkey] at hsealed
  obtain ⟨plain, hrun, hcontents⟩ := Bucket.run_decrypt_of_sealedUnder hsealed
  refine ⟨plain, ?_, hcontents⟩
  rw [run_readPlain (run_read_of_slot hin hslot hunpack), Op.run_within, hrun]
  rfl

/-! ## What a call does to it -/

theorem Invariant.key_writePlain (h : Invariant e st m) (a : A) (bucket : Bucket size) :
    ((writePlain a bucket).run st).state.2.key = e.key :=
  keeps_writePlain (I := (·.key = e.key)) (Block.keeps_key_encrypt e.key) a bucket st h.key_eq

theorem Invariant.key_readPlain (h : Invariant e st m) (a : A) :
    ((readPlain size a).run st).state.2.key = e.key :=
  keeps_readPlain (I := (·.key = e.key)) (Block.keeps_key_decrypt e.key) a st h.key_eq

theorem Invariant.placeFailed {bucket : Bucket size} {err : StoreError} {l : List Event}
    (h : Invariant e (s, e₁) m)
    (hrun : (writePlain a bucket).run (s, e₁) = ⟨.error err, (s', e₂), l⟩) :
    Invariant e (s', e₂) m := by
  have hkey := h.key_writePlain a bucket
  rw [hrun] at hkey
  rcases writePlain_cases hrun with ⟨_, -, rfl⟩ | ⟨_, _, _, hr, -⟩
  · exact h.withEngine hkey
  · exact absurd hr (by simp)

/-- A bucket that was placed is held, and every other slot holds what it held. -/
theorem Invariant.placed [DecidableEq A] {bucket : Bucket size} {l : List Event}
    (h : Invariant e (s, e₁) m) (hb : Storable bucket)
    (hrun : (writePlain a bucket).run (s, e₁) = ⟨.ok (), (s', e₂), l⟩) :
    Invariant e (s', e₂) (Function.update m a (some (Bucket.contents bucket))) := by
  have hkey := h.key_writePlain a bucket
  rw [hrun] at hkey
  rcases writePlain_cases hrun with ⟨_, hr, -⟩ | ⟨sealed, p, l', -, he, hlength, hpack, hin, rfl⟩
  · exact absurd hr (by simp)
  · have hsealed := Bucket.sealedUnder_of_run_encrypt he
    rw [AesGcmEngine.cipher_eq_of_key_eq h.key_eq] at hsealed
    have hne : sealed ≠ [] := by
      rintro rfl
      exact h.bucketSize_ne hlength.symm
    have hunpack : p.unpack size = .ok sealed := by
      rw [PackedBucket.unpack_pack hne (hsealed.length_eq ▸ hb.fits) hpack,
        Bucket.map_canonical_of_sealedUnder hsealed hb.kind]
    refine ⟨hkey, ?_, fun b => ?_⟩
    · rw [Backend.metadata_put]
      exact h.bucketSize_ne
    · by_cases hab : b = a
      · subst hab
        rw [Function.update_self]
        exact ⟨Backend.inRange_put.trans hin, p, bucket, sealed, Backend.slot_put_self hin, hunpack,
          hsealed, rfl⟩
      · rw [Function.update_of_ne hab]
        exact (h.holds b).of_slot_eq (Backend.slot_put_of_ne hab) Backend.inRange_put

theorem Invariant.afterReading (h : Invariant e (s, e₁) m) {plain : Bucket size} {l : List Event}
    (hplain : (readPlain size a).run (s, e₁) = ⟨.ok plain, (s, e₂), l⟩) :
    Invariant e (s, e₂) m := by
  have hkey := h.key_readPlain a
  rw [hplain] at hkey
  exact h.withEngine hkey

theorem Invariant.accessFailed {β : Type} {change : Bucket size → β × Bucket size}
    {err : StoreError} {l : List Event} (h : Invariant e (s, e₁) m)
    (hrun : (access a change).run (s, e₁) = ⟨.error err, (s', e₂), l⟩) :
    Invariant e (s', e₂) m := by
  have hkey := keeps_access (I := (·.key = e.key)) (Block.keeps_key_decrypt e.key)
    (Block.keeps_key_encrypt e.key) a change (s, e₁) h.key_eq
  rw [hrun] at hkey
  obtain rfl : s' = s := state_of_access_error hrun
  exact h.withEngine hkey

/-- What a successful access left is held, and every other slot holds what it
    held. -/
theorem Invariant.accessed [DecidableEq A] {β : Type} {change : Bucket size → β × Bucket size}
    {plain : Bucket size} {r : β} {l l₁ : List Event} (h : Invariant e (s, e₁) m)
    (hplain : (readPlain size a).run (s, e₁) = ⟨.ok plain, st₁, l₁⟩)
    (hb : Storable (change plain).2)
    (hrun : (access a change).run (s, e₁) = ⟨.ok r, (s', e₂), l⟩) :
    Invariant e (s', e₂) (Function.update m a (some (Bucket.contents (change plain).2))) := by
  rcases access_cases hrun with ⟨_, hr, -⟩ | ⟨plain', e₃, r₂, l₃, l₄, hp, hw, hr⟩
  · exact absurd hr (by simp)
  · rw [hp, Outcome.mk.injEq, Except.ok.injEq] at hplain
    obtain ⟨rfl, -, -⟩ := hplain
    cases r₂ with
    | error err => exact absurd hr (by simp [Except.map])
    | ok u => exact (h.afterReading hp).placed hb hw

/-! ## The refinement -/

theorem Reached.invariant [DecidableEq A] {t : S} (hempty : ∀ a, Backend.slot t a = none)
    (hsize : (Backend.metadata t).bucketSize ≠ 0) (h : Reached t e st m) : Invariant e st m := by
  induction h with
  | start => exact ⟨rfl, hsize, hempty⟩
  | placed _ hb hrun ih => exact ih.placed hb hrun
  | placeFailed _ hrun ih => exact ih.placeFailed hrun
  | accessed _ hplain hb hrun ih => exact ih.accessed hplain hb hrun
  | accessFailed _ hrun ih => exact ih.accessFailed hrun

/-- Whatever a reading gives is what the map says. -/
theorem Invariant.contents_of_readPlain {plain : Bucket size} {l : List Event}
    (h : Invariant e (s, e₁) m)
    (hp : (readPlain size a).run (s, e₁) = ⟨.ok plain, (s', e₂), l⟩) :
    m a = some (Bucket.contents plain) := by
  have ha := h.holds a
  cases hm : m a with
  | none =>
    obtain ⟨bucket, l', hread⟩ := read_of_readPlain hp
    obtain ⟨-, p, hslot, -⟩ := slot_of_read hread
    rw [hm] at ha
    exact absurd (hslot.symm.trans ha) (by simp)
  | some contents =>
    rw [hm] at ha
    obtain ⟨plain', hrun, rfl⟩ := run_readPlain_of_holds ha h.key_eq
    rw [hrun, Outcome.mk.injEq, Except.ok.injEq] at hp
    rw [hp.1]

theorem Invariant.represents (h : Invariant e st m) : Represents m st where
  occupied_iff a := by
    have ha := h.holds a
    cases hm : m a with
    | none =>
      rw [hm] at ha
      rw [show Backend.slot st.1 a = none from ha, Option.isSome_none, Option.isSome_none]
    | some contents =>
      rw [hm] at ha
      obtain ⟨-, p, -, -, hslot, -⟩ := ha
      rw [hslot]
      exact iff_of_true rfl rfl
  read a contents hm := run_readPlain_of_holds (hm ▸ h.holds a) h.key_eq
  handed {β} a change change' hsame := by
    rw [access, access, Op.run_bind, Op.run_bind]
    rcases hp : (readPlain size a).run st with ⟨err | plain, st₁, l₁⟩
    · rfl
    · simp only [hsame plain (h.contents_of_readPlain hp)]
  answered a change contents hm := by
    obtain ⟨plain, hplain, hcontents⟩ := run_readPlain_of_holds (hm ▸ h.holds a) h.key_eq
    exact ⟨plain, hcontents, fun sealed e' l hseal => result_access hplain hseal⟩

/-! ## Buckets of one block -/

/-- A bucket of one block is placed, if the tape has no limit. -/
theorem exists_placed [DecidableEq A] {t : S} {b : Block size} (hin : Backend.inRange t a)
    (hsize : (Backend.metadata t).bucketSize = 1) (hlimit : e.tape.limit = none)
    (hb : Storable [b]) :
    ∃ st, Reached t e st (Function.update (fun _ => none) a (some [b.content])) ∧
      (Backend.metadata st.1).bucketSize = 1 ∧ st.2.tape.limit = none := by
  have hfit : wireSize size ≤ Bytes.maxLength := by
    have hfits := hb.fits
    rwa [List.length_singleton, Nat.one_mul] at hfits
  obtain ⟨c, p, e', l, hrun, hlimit', -, -⟩ := exists_placed_one_block hin hsize hlimit
    (hb.kind b (List.mem_singleton_self b)) hfit
  exact ⟨_, .placed .start hb hrun, by rw [Backend.metadata_put, hsize], hlimit'⟩

/-- An access leaves one block in place of whatever is held at an address. -/
theorem Reached.exists_accessed [DecidableEq A] {t : S} {b : Block size}
    {contents : List (Content size)} (h : Reached t e st m) (hm : Represents m st)
    (ha : m a = some contents) (hsize : (Backend.metadata st.1).bucketSize = 1)
    (hlimit : st.2.tape.limit = none) (hb : Storable [b]) :
    ∃ st' l, (access a fun _ : Bucket size => ((), [b])).run st = ⟨.ok (), st', l⟩ ∧
      Reached t e st' (Function.update m a (some [b.content])) := by
  let change : Bucket size → Unit × Bucket size := fun _ => ((), [b])
  obtain ⟨stored, hplain, -⟩ := hm.read a contents ha
  obtain ⟨plain, -, hanswer⟩ := hm.answered a change contents ha
  obtain ⟨c, e', hseal, -⟩ := Block.exists_run_encrypt b hlimit
  have hresult := hanswer [c] e' [] (Op.run_forEach_singleton hseal)
  rw [hsize, if_pos (show [b].length = 1 from rfl)] at hresult
  obtain ⟨st', l, hrun⟩ := Op.exists_run_eq hresult
  have hleft : Storable (change stored).2 := hb
  exact ⟨st', l, hrun, .accessed h hplain hleft hrun⟩

/-! ## The two backends -/

theorem eq_of_createTree {σ : Type} {u : σ} {id : UInt32} {height bucketSize : Nat}
    {hash : String} {t : TreeStorage}
    (h : ((TreeStorage.create id height bucketSize hash).run u).result = .ok t) :
    t = ⟨⟨id, TreeStorage.nodeCount height, bucketSize, hash, .tree⟩, height, ∅⟩ ∧
      bucketSize ≠ 0 := by
  simp only [TreeStorage.create, Op.run_bind, Op.run_report] at h
  split at h
  · exact absurd h (by simp)
  · rename_i hc
    exact ⟨(Except.ok.inj h).symm, fun h0 => hc (.inr h0)⟩

theorem empty_of_createTree {σ : Type} {u : σ} {id : UInt32} {height bucketSize : Nat}
    {hash : String} {t : TreeStorage}
    (h : ((TreeStorage.create id height bucketSize hash).run u).result = .ok t) :
    (∀ a, Backend.slot t a = none) ∧ (Backend.metadata t).bucketSize ≠ 0 := by
  obtain ⟨rfl, hsize⟩ := eq_of_createTree h
  exact ⟨fun a => Std.ExtTreeMap.getElem?_empty, hsize⟩

theorem eq_of_createSqrt {σ : Type} {u : σ} {id : UInt32}
    {capacity bucketSize squaredM : Nat} {hash : String} {t : SqrtStorage}
    (h : ((SqrtStorage.create id capacity bucketSize squaredM hash).run u).result = .ok t) :
    t = ⟨⟨id, capacity, bucketSize, hash, .flat⟩, squaredM, Array.replicate capacity none,
        Array.replicate squaredM none, Array.replicate squaredM none⟩ ∧ bucketSize ≠ 0 := by
  simp only [SqrtStorage.create, Op.run_bind, Op.run_report] at h
  split at h
  · exact absurd h (by simp)
  · rename_i hc
    exact ⟨(Except.ok.inj h).symm, fun h0 => hc (.inr (.inr (.inl h0)))⟩

theorem empty_of_createSqrt {σ : Type} {u : σ} {id : UInt32}
    {capacity bucketSize squaredM : Nat} {hash : String} {t : SqrtStorage}
    (h : ((SqrtStorage.create id capacity bucketSize squaredM hash).run u).result = .ok t) :
    (∀ a, Backend.slot t a = none) ∧ (Backend.metadata t).bucketSize ≠ 0 := by
  obtain ⟨rfl, hsize⟩ := eq_of_createSqrt h
  have hnone (n i : Nat) : ((Array.replicate n (none : Option PackedBucket))[i]?).join = none := by
    rw [Array.getElem?_replicate]
    split <;> rfl
  refine ⟨?_, hsize⟩
  rintro ⟨⟨⟩, i⟩ <;> exact hnone _ i.toNat

/-- **Encrypted storage refines a map in the clear.**  From either backend as it is
    set up and an engine with any key and tape, every run of placings and accesses,
    failed or not, leaves the backend represented by the map that the same calls
    make of the empty one. -/
theorem refines_plain_map {size : Nat} (e : AesGcmEngine) :
    (∀ (id : UInt32) (height bucketSize : Nat) (hash : String) (t : TreeStorage),
      ((TreeStorage.create id height bucketSize hash).run ()).result = .ok t →
      ∀ st (m : PlainMap TreeTag size), Reached t e st m → Represents m st) ∧
    (∀ (id : UInt32) (capacity bucketSize squaredM : Nat) (hash : String) (t : SqrtStorage),
      ((SqrtStorage.create id capacity bucketSize squaredM hash).run ()).result = .ok t →
      ∀ st (m : PlainMap SqrtAddress size), Reached t e st m → Represents m st) := by
  constructor
  · intro id height bucketSize hash t ht st m h
    obtain ⟨hempty, hsize⟩ := empty_of_createTree ht
    exact (h.invariant hempty hsize).represents
  · intro id capacity bucketSize squaredM hash t ht st m h
    obtain ⟨hempty, hsize⟩ := empty_of_createSqrt ht
    exact (h.invariant hempty hsize).represents

/-- One block, placed at the root of a tree and in the first slot of a flat backend, and
    an access that leaves another in its place. -/
theorem refines_plain_map_one_block :
    let e : AesGcmEngine := ⟨⟨Vector.replicate keySize 0⟩, ⟨fun _ => 0, none, 0⟩⟩
    let b : Block 1 := .new 7 .normal #v[0xAB]
    let c : Block 1 := .new 8 .normal #v[0xCD]
    let root : TreeTag := ⟨0, 0⟩
    let first : SqrtAddress := ⟨.mainMemory, 0⟩
    let change : Bucket 1 → Unit × Bucket 1 := fun _ => ((), [c])
    let m : PlainMap TreeTag 1 := Function.update (fun _ => none) root (some [b.content])
    let m' : PlainMap SqrtAddress 1 := Function.update (fun _ => none) first (some [b.content])
    (∃ t st st' l, ((TreeStorage.create 0 0 1 "tree").run ()).result = .ok t ∧
      Reached t e st m ∧ Represents m st ∧ (access root change).run st = ⟨.ok (), st', l⟩ ∧
      Reached t e st' (Function.update m root (some [c.content])) ∧
      Represents (Function.update m root (some [c.content])) st') ∧
    ∃ t st st' l, ((SqrtStorage.create 0 1 1 1 "flat").run ()).result = .ok t ∧
      Reached t e st m' ∧ Represents m' st ∧ (access first change).run st = ⟨.ok (), st', l⟩ ∧
      Reached t e st' (Function.update m' first (some [c.content])) ∧
      Represents (Function.update m' first (some [c.content])) st' := by
  intro e b c root first change m m'
  have hb : Storable [b] := ⟨by decide, by decide⟩
  have hc : Storable [c] := ⟨by decide, by decide⟩
  constructor
  · let t : TreeStorage := ⟨⟨0, TreeStorage.nodeCount 0, 1, "tree", .tree⟩, 0, ∅⟩
    have hrefines : ∀ st (m : PlainMap TreeTag 1), Reached t e st m → Represents m st :=
      (refines_plain_map e).1 0 0 1 "tree" t rfl
    obtain ⟨st, hst, hsize, hlimit⟩ := exists_placed (t := t) (e := e) (a := root) rfl rfl rfl hb
    have hm := hrefines st m hst
    obtain ⟨st', l, hrun, hst'⟩ :=
      hst.exists_accessed hm (Function.update_self root _ _) hsize hlimit hc
    exact ⟨t, st, st', l, rfl, hst, hm, hrun, hst', hrefines st' _ hst'⟩
  · let t : SqrtStorage := ⟨⟨0, 1, 1, "flat", .flat⟩, 1, #[none], #[none], #[none]⟩
    have hrefines : ∀ st (m : PlainMap SqrtAddress 1), Reached t e st m → Represents m st :=
      (refines_plain_map e).2 0 1 1 1 "flat" t rfl
    obtain ⟨st, hst, hsize, hlimit⟩ := exists_placed (t := t) (e := e) (a := first) rfl rfl rfl hb
    have hm := hrefines st m' hst
    obtain ⟨st', l, hrun, hst'⟩ :=
      hst.exists_accessed hm (Function.update_self first _ _) hsize hlimit hc
    exact ⟨t, st, st', l, rfl, hst, hm, hrun, hst', hrefines st' _ hst'⟩

end ObliviousStore.Storage
