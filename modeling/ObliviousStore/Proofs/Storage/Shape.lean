/-
  Every bucket is served in full (`serves_full_shape`).

  A backend to which no packed buckets are brought keeps in every slot the packed form
  of as many blocks as a bucket has (`Filled`).  Only writing looks at the number of
  blocks; that reading finds it, and that no call fails to unpack what it finds, is
  what this invariant says.
-/
import ObliviousStore.Proofs.Engine.Origin
import ObliviousStore.Proofs.Storage.Call

namespace ObliviousStore

variable {size n : Nat}

/-- The failures of unpacking: the bytes do not expand, there is no buffer to expand
    them into, or what they expand to leaves a remainder. -/
def StoreError.Unpacking : StoreError → Prop
  | decompression _ | oversizedBuffer | invalidSize .. => True
  | _ => False

/-! ## Packed buckets of full shape -/

/-- A buffer has room for the wire form of the bucket, as it has for that of every list
    of blocks that memory can hold. -/
def Bucket.Fits (bucket : Bucket size) : Prop := bucket.length * wireSize size ≤ Bytes.maxLength

theorem Bucket.Fits.of_length_eq {bucket bucket' : Bucket size} (h : bucket.Fits)
    (hlength : bucket'.length = bucket.length) : bucket'.Fits := by
  rw [Fits, hlength]
  exact h

namespace PackedBucket

/-- The packed form of `n` blocks. -/
def Full (size n : Nat) (p : PackedBucket) : Prop :=
  ∃ bucket : Bucket size, bucket.length = n ∧ bucket.Fits ∧ bucket.pack = .ok p

variable {p : PackedBucket}

theorem Full.uncompressedLength_eq (h : p.Full size n) :
    p.uncompressedLength = n * wireSize size := by
  obtain ⟨bucket, rfl, -, hpack⟩ := h
  rw [Bucket.pack_eq_ok] at hpack
  rw [← Except.ok.inj hpack]

/-- What is packed in full is unpacked, to blocks that have the same packed form. -/
theorem Full.exists_unpack (h : p.Full size n) (hn : n ≠ 0) :
    ∃ bucket : Bucket size, p.unpack size = .ok bucket ∧ bucket.length = n ∧ bucket.Fits ∧
      bucket.pack = .ok p := by
  obtain ⟨bucket, rfl, hfits, hpack⟩ := h
  have hne : bucket ≠ [] := List.ne_nil_of_length_pos (Nat.pos_of_ne_zero hn)
  refine ⟨_, unpack_pack hne hfits hpack, List.length_map _, ?_, ?_⟩
  · exact hfits.of_length_eq (List.length_map _)
  · rw [Bucket.pack_map_canonical, hpack]

end PackedBucket

namespace Storage

/-! ## Calls -/

/-- Upkeep of blocks with some number of bytes of payload, which succeeds where all
    buckets are of such blocks. -/
class Upkeep.Sized (S : Type) (A X : outParam Type) [Backend S A] [Upkeep S A X] where
  takes : X → Nat → Prop
  result_op {x : X} {size : Nat} {s : S} (hx : takes x size)
    (hs : ∀ a p, Backend.slot s a = some p → ∃ bucket : Bucket size, p.unpack size = .ok bucket) :
    ((Upkeep.op x : Op S Unit).run s).result = .ok ()

variable {S A X E β : Type} [Backend S A]

/-- A call that takes all blocks to have `size` bytes of payload and brings no packed
    bucket. -/
inductive BackendCall.Uses (S : Type) {A X : Type} [Backend S A] [Upkeep S A X] [Upkeep.Sized S A X]
    (size : Nat) : BackendCall A X → Prop where
  | write {bucket : Bucket size} (a : A) (h : bucket.Fits) :
      Uses S size (.command (.deposit a (.write bucket)))
  | fetch (a : A) : Uses S size (.command (.fetch a))
  | read (a : A) : Uses S size (.command (.read size a))
  | access {E β : Type} [CryptoEngine E] {change : Bucket size → β × Bucket size} (e : E) (a : A)
      (h : ∀ plain, plain.Fits → (change plain).2.Fits) : Uses S size (.access e a change)
  | upkeep {x : X} (h : Upkeep.Sized.takes S x size) : Uses S size (.command (.upkeep x))

/-- What the engine that a call brings failed with. -/
def BackendCall.failures (s : S) : BackendCall A X → List StoreError
  | command _ => []
  | access e a change => (accessing a change s).failures e

/-! ## The invariant -/

/-- Every slot that is occupied holds the packed form of a whole bucket. -/
structure Filled (size n : Nat) (s : S) : Prop where
  bucketSize_eq : (Backend.metadata s).bucketSize = n
  full : ∀ a p, Backend.slot s a = some p → Backend.inRange s a ∧ p.Full size n

variable {s s' : S} {a : A} {p : PackedBucket} {err : StoreError}

theorem Filled.put (h : Filled size n s) (hin : Backend.inRange s a) (hp : p.Full size n) :
    Filled size n (Backend.put s a p) where
  bucketSize_eq := by rw [Backend.metadata_put, h.bucketSize_eq]
  full b q hslot := by
    rw [Backend.inRange_put]
    by_cases hb : b = a
    · subst hb
      rw [Backend.slot_put_self hin] at hslot
      obtain rfl := Option.some.inj hslot
      exact ⟨hin, hp⟩
    · rw [Backend.slot_put_of_ne hb] at hslot
      exact h.full b q hslot

theorem Filled.upkeep [Upkeep S A X] (h : Filled size n s) (x : X) :
    Filled size n ((Upkeep.op x : Op S Unit).run s).state where
  bucketSize_eq := (congrArg Metadata.bucketSize Upkeep.metadata_op).trans h.bucketSize_eq
  full b q hslot := by
    rw [Upkeep.inRange_op]
    rw [Upkeep.slot_op] at hslot
    split at hslot
    · exact absurd hslot (by simp)
    · exact h.full b q hslot

theorem Filled.exists_read (h : Filled size n s) (hn : n ≠ 0) (hslot : Backend.slot s a = some p) :
    ∃ bucket : Bucket size,
      (read size a).run s = ⟨.ok bucket, s, [.physicalRead (Backend.location S a)]⟩ ∧
      bucket.length = n ∧ bucket.Fits ∧ bucket.pack = .ok p := by
  obtain ⟨hin, hfull⟩ := h.full a p hslot
  obtain ⟨bucket, hunpack, hrest⟩ := hfull.exists_unpack hn
  exact ⟨bucket, run_read_of_slot hin hslot hunpack, hrest⟩

/-- What is read in the clear are as many blocks as a bucket has. -/
theorem Filled.of_readPlain [CryptoEngine E] {e e₁ : E} {plain : Bucket size} {l : List Event}
    (h : Filled size n s) (hn : n ≠ 0)
    (hplain : (readPlain size a).run (s, e) = ⟨.ok plain, (s, e₁), l⟩) :
    plain.length = n ∧ plain.Fits := by
  obtain ⟨stored, l', hread⟩ := read_of_readPlain hplain
  obtain ⟨-, p, hslot, -⟩ := slot_of_read hread
  obtain ⟨bucket, hbucket, hlength, hfits, -⟩ := h.exists_read hn hslot
  rw [hbucket, Outcome.mk.injEq] at hread
  obtain rfl : bucket = stored := Except.ok.inj hread.1
  have hkeep := Op.length_forEach (x := Block.decrypt) bucket e
  rw [run_readPlain hbucket, Op.run_within, Outcome.mk.injEq] at hplain
  rcases hopen : (Op.forEach Block.decrypt).run (bucket, e) with ⟨err | u, ⟨opened, e₂⟩, l₂⟩
  · rw [hopen] at hplain
    exact absurd hplain.1 (by simp [Except.map])
  · rw [hopen] at hplain hkeep
    obtain rfl : opened = plain := Except.ok.inj hplain.1
    exact ⟨hkeep.trans hlength, hfits.of_length_eq hkeep⟩

variable [Upkeep S A X] [Upkeep.Sized S A X] {c : BackendCall A X}

/-- What a call puts at an address is a whole bucket. -/
theorem Filled.full_of_puts (h : Filled size n s) (hn : n ≠ 0) (hc : c.Uses S size)
    (hputs : c.Puts s a p) : p.Full size n := by
  cases hputs with
  | stored => cases hc
  | written a hlength hpack =>
    cases hc with
    | write _ hfits => exact ⟨_, hlength.trans h.bucketSize_eq, hfits, hpack⟩
  | accessed hplain hchange hlength hpack =>
    cases hc with
    | access _ _ hfits =>
      obtain ⟨-, hplainFits⟩ := h.of_readPlain hn hplain
      exact ⟨_, hlength.trans h.bucketSize_eq, (hfits _ hplainFits).of_length_eq hchange, hpack⟩

theorem Filled.op (h : Filled size n s) (hn : n ≠ 0) (hc : c.Uses S size) :
    Filled size n (c.op.run s).state := by
  rcases c.op_cases s with hs | ⟨a, p, hputs, hin, -, hs⟩ | ⟨x, rfl⟩
  · rw [hs]
    exact h
  · rw [hs]
    exact h.put hin (h.full_of_puts hn hc hputs)
  · exact h.upkeep x

theorem Filled.session {calls : List (BackendCall A X)} (h : Filled size n s) (hn : n ≠ 0)
    (hcalls : ∀ c ∈ calls, c.Uses S size) : Filled size n (session calls s).state := by
  induction calls generalizing s with
  | nil => exact h
  | cons c calls ih =>
    obtain ⟨hc, hrest⟩ := List.forall_mem_cons.1 hcalls
    exact ih (h.op hn hc) hrest

/-! ## Failures -/

omit [Upkeep S A X] [Upkeep.Sized S A X]

theorem not_unpacking_of_fetch (h : ((fetch a).run s).result = .error err) : ¬err.Unpacking := by
  rw [run_fetch] at h
  split at h
  · cases hslot : Backend.slot s a with
    | none =>
      rw [hslot] at h
      obtain rfl : StoreError.bucketNotFound = err := Except.error.inj h
      exact id
    | some p =>
      rw [hslot] at h
      exact absurd h (by simp)
  · obtain rfl : StoreError.addressOutOfBounds = err := Except.error.inj h
    exact id

theorem not_unpacking_of_write {bucket : Bucket size}
    (h : ((write a bucket).run s).result = .error err) : ¬err.Unpacking := by
  rw [run_write (Bucket.pack_eq_ok bucket)] at h
  split at h
  · split at h
    · exact absurd h (by simp)
    · obtain rfl : StoreError.addressOutOfBounds = err := Except.error.inj h
      exact id
  · rw [← Except.error.inj h]
    exact id

theorem Filled.not_unpacking_of_read (h : Filled size n s) (hn : n ≠ 0)
    (herr : ((read size a).run s).result = .error err) : ¬err.Unpacking := by
  cases hslot : Backend.slot s a with
  | some p =>
    obtain ⟨bucket, hread, -⟩ := h.exists_read hn hslot
    rw [hread] at herr
    exact absurd herr (by simp)
  | none =>
    -- nothing is fetched, so nothing is unpacked
    rw [run_read, run_fetch, hslot] at herr
    split at herr
    · obtain rfl : StoreError.bucketNotFound = err := Except.error.inj herr
      exact id
    · obtain rfl : StoreError.addressOutOfBounds = err := Except.error.inj herr
      exact id

/-- An access fails to unpack where its reading does, and nowhere else, but for what
    its engine says. -/
theorem owns_accessing (a : A) (change : Bucket size → β × Bucket size)
    (hread : ∀ err, ((read size a).run s).result = .error err → ¬err.Unpacking) :
    (accessing a change s).Owns (¬·.Unpacking) := by
  refine .script_bind ?_ fun plain s' => .script_bind ?_ fun u s'' => .ok _ s''
  · refine .script_bind (.done hread) fun stored s' => .script_within (.script_forEach ?_ stored) s'
    exact fun b => b.owns_decryption.mono fun err herr => by rw [herr]; exact id
  · refine .script_bind ?_ fun sealed s'' => .done fun err => not_unpacking_of_write
    refine .script_within (.script_forEach ?_ (change plain).2) s'
    exact fun b => b.owns_encryption.mono fun err herr => by rw [herr]; exact id

section calls

variable [Upkeep S A X] [Upkeep.Sized S A X] {c : BackendCall A X}

theorem Filled.result_upkeep (h : Filled size n s) (hn : n ≠ 0) {x : X}
    (hx : Upkeep.Sized.takes S x size) : ((Upkeep.op x : Op S Unit).run s).result = .ok () := by
  refine Upkeep.Sized.result_op hx fun a p hslot => ?_
  obtain ⟨-, hfull⟩ := h.full a p hslot
  obtain ⟨bucket, hunpack, -⟩ := hfull.exists_unpack hn
  exact ⟨bucket, hunpack⟩

/-- A call fails to unpack only if its engine says so. -/
theorem Filled.mem_failures (h : Filled size n s) (hn : n ≠ 0) (hc : c.Uses S size)
    (herr : (c.op.run s).result = .error err) (hunpacking : err.Unpacking) :
    err ∈ c.failures s := by
  cases hc with
  | write a _ => exact absurd hunpacking (not_unpacking_of_write herr)
  | fetch a =>
    rw [BackendCall.op, Command.op, Op.run_discard] at herr
    exact absurd hunpacking (not_unpacking_of_fetch (Except.map_eq_error herr))
  | read a =>
    rw [BackendCall.op, Command.op, Op.run_discard] at herr
    exact absurd hunpacking (h.not_unpacking_of_read hn (Except.map_eq_error herr))
  | @access E β _ change e a _ =>
    rw [BackendCall.run_access] at herr
    have hhold := (converses_access a change s e).1
    rw [Except.map_eq_error herr] at hhold
    have howns := owns_accessing a change fun _ => h.not_unpacking_of_read hn
    rcases howns E e err hhold.symm with hown | hmem
    · exact absurd hunpacking hown
    · exact hmem
  | upkeep hx => exact absurd (herr.symm.trans (h.result_upkeep hn hx)) (by simp)

/-- What is promised of a backend with `n` blocks of `size` bytes to a bucket: whatever
    it keeps is recorded with the length of `n` blocks, and read as `n` blocks that are
    packed just so; its upkeep succeeds, and no call fails to unpack anything, but for
    what an engine says. -/
structure FullShape (size n : Nat) (s : S) : Prop where
  recorded : ∀ a p, Backend.slot s a = some p → p.uncompressedLength = n * wireSize size
  read : ∀ a p, Backend.slot s a = some p → ∃ bucket : Bucket size,
    (read size a).run s = ⟨.ok bucket, s, [.physicalRead (Backend.location S a)]⟩ ∧
      bucket.length = n ∧ bucket.pack = .ok p
  upkeep : ∀ x, Upkeep.Sized.takes S x size → ((Upkeep.op x : Op S Unit).run s).result = .ok ()
  unpacks : ∀ (c : BackendCall A X) (err : StoreError), c.Uses S size →
    (c.op.run s).result = .error err → err.Unpacking → err ∈ c.failures s

theorem Filled.fullShape (h : Filled size n s) (hn : n ≠ 0) : FullShape size n s where
  recorded a p hslot := (h.full a p hslot).2.uncompressedLength_eq
  read a p hslot := by
    obtain ⟨bucket, hread, hlength, -, hpack⟩ := h.exists_read hn hslot
    exact ⟨bucket, hread, hlength, hpack⟩
  upkeep _ hx := h.result_upkeep hn hx
  unpacks c err hc := h.mem_failures hn hc

theorem fullShape_session {t : S} {calls : List (BackendCall A X)}
    (hempty : ∀ a, Backend.slot t a = none) (hn : (Backend.metadata t).bucketSize ≠ 0)
    (hcalls : ∀ c ∈ calls, c.Uses S size) :
    FullShape size (Backend.metadata t).bucketSize (session calls t).state := by
  have hstart : Filled size (Backend.metadata t).bucketSize t := by
    refine ⟨rfl, fun a p hslot => ?_⟩
    exact absurd ((hempty a).symm.trans hslot) (by simp)
  exact (hstart.session hn hcalls).fullShape hn

end calls

end Storage

/-! ## The two backends -/

namespace TreeStorage

theorem succeeds_listNode {σ : Type} {p : PackedBucket}
    (h : ∃ bucket : Bucket size, p.unpack size = .ok bucket) (tag : TreeTag) :
    Op.Succeeds (listNode (σ := σ) size tag p) := by
  unfold listNode
  refine .bind (.report _) fun _ => .bind (.ofExcept h) fun bucket => .bind ?_ fun _ => .pure _
  exact .listForM (fun _ => .report _) _

/-- A tree whose buckets can all be unpacked is listed. -/
theorem exists_dump {t : TreeStorage}
    (h : ∀ tag p, Backend.slot t tag = some p → ∃ bucket : Bucket size, p.unpack size = .ok bucket) :
    ∃ listing, ((dump size).run t).result = .ok listing := by
  rw [dump, Op.run_bind, Op.run_get]
  refine Op.Succeeds.bind (.report _) (fun _ => .listMapM ?_) t
  rintro ⟨tag, p⟩ hmem
  have hslot : Backend.slot t tag = some p := Std.ExtTreeMap.mem_toList_iff_getElem?_eq_some.1 hmem
  exact .bind (succeeds_listNode (h tag p hslot) tag) fun _ => .pure _

instance : Storage.Upkeep.Sized TreeStorage TreeTag TreeUpkeep where
  takes
    | .dump n, size => n = size
  result_op {x size t} hx ht := by
    cases x with
    | dump n =>
      obtain rfl : n = size := hx
      obtain ⟨listing, hdump⟩ := exists_dump ht
      change (Op.run (dump n >>= fun _ => pure ()) t).result = .ok ()
      rw [Op.run_discard, hdump]
      rfl

end TreeStorage

instance : Storage.Upkeep.Sized SqrtStorage SqrtAddress SqrtUpkeep where
  takes _ _ := True
  result_op {x _ s} _ _ := by
    cases x
    exact congrArg Outcome.result s.run_clearShelter

namespace Storage

/-- **Every bucket is served in full.**  In every state that calls lead either backend to
    from where it was set up, as long as all of them take blocks to have the same number
    of bytes of payload and none brings a packed bucket, every bucket kept is recorded
    with one length, read as its full number of blocks and packed as it was, and nothing
    fails to unpack.  A call that fails is no exception, whatever made it fail. -/
theorem serves_full_shape (size : Nat) :
    (∀ (id : UInt32) (height bucketSize : Nat) (hash : String) (t : TreeStorage),
      ((TreeStorage.create id height bucketSize hash).run ()).result = .ok t →
      ∀ calls : List (BackendCall TreeTag TreeUpkeep), (∀ c ∈ calls, c.Uses TreeStorage size) →
        FullShape size bucketSize (session calls t).state) ∧
    (∀ (id : UInt32) (capacity bucketSize squaredM : Nat) (hash : String) (t : SqrtStorage),
      ((SqrtStorage.create id capacity bucketSize squaredM hash).run ()).result = .ok t →
      ∀ calls : List (BackendCall SqrtAddress SqrtUpkeep), (∀ c ∈ calls, c.Uses SqrtStorage size) →
        FullShape size bucketSize (session calls t).state) := by
  constructor
  · intro id height bucketSize hash t ht calls hcalls
    obtain ⟨hempty, hn⟩ := empty_of_createTree ht
    obtain ⟨rfl, -⟩ := eq_of_createTree ht
    exact fullShape_session hempty hn hcalls
  · intro id capacity bucketSize squaredM hash t ht calls hcalls
    obtain ⟨hempty, hn⟩ := empty_of_createSqrt ht
    obtain ⟨rfl, -⟩ := eq_of_createSqrt ht
    exact fullShape_session hempty hn hcalls

/-- A bucket of one block in a leaf of a tree, and one in the main memory of a flat
    backend whose shelter is emptied. -/
theorem serves_full_shape_one_block :
    let b : Block 1 := .new 7 .normal #v[0xAB]
    let leaf : BackendCall TreeTag TreeUpkeep := .command (.deposit ⟨1, 1⟩ (.write [b]))
    let main : BackendCall SqrtAddress SqrtUpkeep :=
      .command (.deposit ⟨.mainMemory, 0⟩ (.write [b]))
    let clear : BackendCall SqrtAddress SqrtUpkeep := .command (.upkeep .clearShelter)
    (∃ t, ((TreeStorage.create 0 1 1 "tree").run ()).result = .ok t ∧
      ∃ bucket : Bucket 1,
        ((read 1 (⟨1, 1⟩ : TreeTag)).run (session [leaf] t).state).result = .ok bucket ∧
        bucket.length = 1) ∧
    ∃ t, ((SqrtStorage.create 0 1 1 1 "flat").run ()).result = .ok t ∧
      ∃ bucket : Bucket 1,
        ((read 1 (⟨.mainMemory, 0⟩ : SqrtAddress)).run (session [main, clear] t).state).result =
            .ok bucket ∧
        bucket.length = 1 := by
  intro b leaf main clear
  have hfits : Bucket.Fits [b] := by
    unfold Bucket.Fits
    decide
  constructor
  · let t : TreeStorage := ⟨⟨0, TreeStorage.nodeCount 1, 1, "tree", .tree⟩, 1, ∅⟩
    have hcalls : ∀ c ∈ [leaf], c.Uses TreeStorage 1 := List.forall_mem_singleton.2 (.write _ hfits)
    have hshape := (serves_full_shape 1).1 0 1 1 "tree" t rfl [leaf] hcalls
    obtain ⟨p, hslot⟩ : ∃ p, Backend.slot (session [leaf] t).state ⟨1, 1⟩ = some p := by
      rw [state_session_cons, state_session_nil]
      exact BackendCall.exists_slot_write _ [b] rfl rfl
    obtain ⟨bucket, hread, hlength, -⟩ := hshape.read _ p hslot
    exact ⟨t, rfl, bucket, congrArg Outcome.result hread, hlength⟩
  · let t : SqrtStorage := ⟨⟨0, 1, 1, "flat", .flat⟩, 1, #[none], #[none], #[none]⟩
    have hcalls : ∀ c ∈ [main, clear], c.Uses SqrtStorage 1 :=
      List.forall_mem_cons.2 ⟨.write _ hfits, List.forall_mem_singleton.2 (.upkeep trivial)⟩
    have hshape := (serves_full_shape 1).2 0 1 1 1 "flat" t rfl [main, clear] hcalls
    obtain ⟨p, hmain⟩ : ∃ p, Backend.slot (main.op.run t).state ⟨.mainMemory, 0⟩ = some p :=
      BackendCall.exists_slot_write _ [b] rfl rfl
    have hslot : Backend.slot (session [main, clear] t).state ⟨.mainMemory, 0⟩ = some p := by
      rw [state_session_cons, state_session_cons, state_session_nil]
      exact Upkeep.slot_op.trans hmain
    obtain ⟨bucket, hread, hlength, -⟩ := hshape.read _ p hslot
    exact ⟨t, rfl, bucket, congrArg Outcome.result hread, hlength⟩

end Storage

end ObliviousStore
