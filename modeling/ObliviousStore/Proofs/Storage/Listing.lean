/-
  What the listing of a tree says (`dump_faithful`).

  The nodes are visited level by level and from the left (`TreeTag.Before`), each that holds
  a bucket once, and the listing of a node is what a reading of it returns, block by block
  (`Lists`).  A bucket that cannot be unpacked ends the listing at its node.  Encryption
  leaves identifiers and types in the clear, so that a bucket is listed as it was before.
-/
import ObliviousStore.Proofs.Block.Frame
import ObliviousStore.Proofs.Bucket.Unpacking
import ObliviousStore.Proofs.Storage.Capacity

namespace ObliviousStore

/-- The order in which a tree is listed: level by level, and from the left. -/
def TreeTag.Before (a b : TreeTag) : Prop := a.level < b.level ∨ a.level = b.level ∧ a.node < b.node

theorem TreeTag.order_eq_lt {a b : TreeTag} : TreeTag.order a b = .lt ↔ a.Before b := by
  simp only [TreeTag.order, compareLex, compareOn, Ordering.then_eq_lt, Std.compare_eq_lt,
    Std.LawfulEqCmp.compare_eq_iff_eq, TreeTag.Before]

theorem TreeTag.Before.asymm {a b : TreeTag} (h : a.Before b) : ¬b.Before a := by
  rw [← order_eq_lt] at h ⊢
  exact Std.OrientedCmp.not_lt_of_lt h

/-- What a block shows of itself when it is listed. -/
def Block.entry {size : Nat} (b : Block size) : BlockId × BlockType := (b.header.id, b.header.kind)

namespace TreeStorage

open Storage

variable {size : Nat} {σ : Type} {t : TreeStorage} {tag : TreeTag} {p : PackedBucket}
  {err : StoreError}

/-! ## One node after another -/

/-- What is logged for a node and its blocks. -/
def shown (x : TreeTag × Listing) : List Event :=
  .nodeListed x.1 :: x.2.map fun (id, kind) => .entryListed id kind

/-- The listing of a node with its packed bucket. -/
def visit (size : Nat) : TreeTag × PackedBucket → Op σ (TreeTag × Listing)
  | (tag, p) => do return (tag, ← listNode size tag p)

/-- What the listing of a node is, if its bucket can be unpacked. -/
def listed (size : Nat) (x : TreeTag × PackedBucket) : TreeTag × Listing :=
  (x.1, ((x.2.unpack size).toOption.getD []).map Block.entry)

theorem listed_eq {x : TreeTag × PackedBucket} {bucket : Bucket size}
    (h : x.2.unpack size = .ok bucket) : listed size x = (x.1, bucket.map Block.entry) := by
  rw [listed, h]
  rfl

theorem run_forM_report {α : Type} (f : α → Event) (as : List α) (s : σ) :
    (as.forM fun a => Op.report (f a) : Op σ PUnit).run s = ⟨.ok (), s, as.map f⟩ := by
  induction as with
  | nil => rfl
  | cons a as ih =>
    change (Op.report (f a) >>= fun _ => as.forM fun a => Op.report (f a) : Op σ PUnit).run s = _
    rw [Op.run_bind, Op.run_report]
    simp only [ih]
    rfl

theorem run_visit {x : TreeTag × PackedBucket} {bucket : Bucket size}
    (h : x.2.unpack size = .ok bucket) (s : σ) :
    (visit size x).run s = ⟨.ok (listed size x), s, shown (listed size x)⟩ := by
  rw [listed_eq h]
  simp only [visit, listNode, Op.run_bind, Op.run_report, h, Op.run_ofExcept]
  rw [run_forM_report fun (x : BlockId × BlockType) => .entryListed x.1 x.2]
  simp only [Op.run_pure, List.append_nil]
  rfl

theorem run_visit_of_error {x : TreeTag × PackedBucket} (h : x.2.unpack size = .error err) (s : σ) :
    (visit size x).run s = ⟨.error err, s, [.nodeListed x.1]⟩ := by
  simp only [visit, listNode, Op.run_bind, Op.run_report, h, Op.run_ofExcept]
  rfl

theorem run_visits {nodes : List (TreeTag × PackedBucket)}
    (h : ∀ x ∈ nodes, ∃ bucket : Bucket size, x.2.unpack size = .ok bucket) (s : σ) :
    (nodes.mapM (visit size)).run s =
      ⟨.ok (nodes.map (listed size)), s, (nodes.map (listed size)).flatMap shown⟩ := by
  induction nodes with
  | nil => rfl
  | cons x nodes ih =>
    obtain ⟨⟨bucket, hx⟩, hnodes⟩ := List.forall_mem_cons.1 h
    rw [List.mapM_cons, Op.run_bind_ok (run_visit hx s), Op.run_bind_ok (ih hnodes)]
    simp only [Op.run_pure, List.append_nil]
    rfl

/-- A bucket that cannot be unpacked is the end. -/
theorem run_visits_of_error {before after : List (TreeTag × PackedBucket)}
    {x : TreeTag × PackedBucket}
    (h : ∀ y ∈ before, ∃ bucket : Bucket size, y.2.unpack size = .ok bucket)
    (hx : x.2.unpack size = .error err) (s : σ) :
    ((before ++ x :: after).mapM (visit size)).run s =
      ⟨.error err, s, (before.map (listed size)).flatMap shown ++ [.nodeListed x.1]⟩ := by
  induction before with
  | nil =>
    rw [List.nil_append, List.mapM_cons, Op.run_bind_error (run_visit_of_error hx s)]
    rfl
  | cons y before ih =>
    obtain ⟨⟨bucket, hy⟩, hbefore⟩ := List.forall_mem_cons.1 h
    rw [List.cons_append, List.mapM_cons, Op.run_bind_ok (run_visit hy s),
      Op.run_bind_error (ih hbefore)]
    simp only [List.map_cons, List.flatMap_cons, List.append_assoc]

/-- Either all buckets can be unpacked, or there is a first that cannot. -/
theorem unpack_or_first (size : Nat) (nodes : List (TreeTag × PackedBucket)) :
    (∀ x ∈ nodes, ∃ bucket : Bucket size, x.2.unpack size = .ok bucket) ∨
    ∃ before x after err, nodes = before ++ x :: after ∧
      (∀ y ∈ before, ∃ bucket : Bucket size, y.2.unpack size = .ok bucket) ∧
      x.2.unpack size = .error err := by
  induction nodes with
  | nil => exact .inl (List.forall_mem_nil _)
  | cons x nodes ih =>
    rcases hx : x.2.unpack size with err | bucket
    · exact .inr ⟨[], x, nodes, err, rfl, List.forall_mem_nil _, hx⟩
    · rcases ih with hall | ⟨before, y, after, err, rfl, hbefore, hy⟩
      · exact .inl (List.forall_mem_cons.2 ⟨⟨bucket, hx⟩, hall⟩)
      · exact .inr ⟨x :: before, y, after, err, rfl,
          List.forall_mem_cons.2 ⟨⟨bucket, hx⟩, hbefore⟩, hy⟩

/-! ## The nodes of a tree -/

theorem mem_nodes {x : TreeTag × PackedBucket} :
    x ∈ t.buckets.toList ↔ Backend.slot t x.1 = some x.2 :=
  Std.ExtTreeMap.mem_toList_iff_getElem?_eq_some

theorem pairwise_nodes (t : TreeStorage) :
    t.buckets.toList.Pairwise fun x y => x.1.Before y.1 := by
  have hordered := Std.ExtTreeMap.ordered_keys_toList (t := t.buckets)
  simpa only [TreeTag.order_eq_lt] using hordered

/-- The nodes that come first are those before. -/
theorem mem_before_iff {before after : List (TreeTag × PackedBucket)} {x y : TreeTag × PackedBucket}
    (h : t.buckets.toList = before ++ x :: after) :
    y ∈ before ↔ Backend.slot t y.1 = some y.2 ∧ y.1.Before x.1 := by
  have hordered := pairwise_nodes t
  rw [h, List.pairwise_append, List.pairwise_cons] at hordered
  obtain ⟨-, ⟨hafter, -⟩, hbefore⟩ := hordered
  rw [← mem_nodes, h, List.mem_append, List.mem_cons]
  -- The order is strict, so that neither `x` nor what comes after it is before `x`.
  constructor
  · intro hy
    exact ⟨.inl hy, hbefore y hy x List.mem_cons_self⟩
  · rintro ⟨hy | rfl | hy, hlt⟩
    · exact hy
    · exact absurd hlt hlt.asymm
    · exact absurd hlt (hafter y hy).asymm

/-- A listing of the nodes `among` those that hold a bucket: in their order, each once, and
    each as a reading of it shows it. -/
structure Lists (size : Nat) (t : TreeStorage) (among : TreeTag → Prop)
    (listing : List (TreeTag × Listing)) : Prop where
  increasing : listing.Pairwise fun x y => x.1.Before y.1
  mem_iff : ∀ tag, tag ∈ listing.map Prod.fst ↔ (Backend.slot t tag).isSome ∧ among tag
  read_eq : ∀ tag entries, (tag, entries) ∈ listing → ∃ bucket : Bucket size,
    (read size tag).run t = ⟨.ok bucket, t, [.physicalRead (.node tag)]⟩ ∧
    entries = bucket.map Block.entry

theorem lists_map {nodes : List (TreeTag × PackedBucket)} {among : TreeTag → Prop}
    (ht : ∀ tag ∈ t.buckets, Backend.inRange t tag)
    (hordered : nodes.Pairwise fun x y => x.1.Before y.1)
    (hmem : ∀ x, x ∈ nodes ↔ Backend.slot t x.1 = some x.2 ∧ among x.1)
    (h : ∀ x ∈ nodes, ∃ bucket : Bucket size, x.2.unpack size = .ok bucket) :
    Lists size t among (nodes.map (listed size)) where
  increasing := List.pairwise_map.2 hordered
  mem_iff tag := by
    rw [List.map_map, List.mem_map, Option.isSome_iff_exists]
    constructor
    · rintro ⟨⟨_, p⟩, hx, rfl⟩
      obtain ⟨hslot, hamong⟩ := (hmem _).1 hx
      exact ⟨⟨p, hslot⟩, hamong⟩
    · rintro ⟨⟨p, hslot⟩, hamong⟩
      exact ⟨(tag, p), (hmem _).2 ⟨hslot, hamong⟩, rfl⟩
  read_eq tag entries hentries := by
    obtain ⟨⟨tag', p⟩, hx, heq⟩ := List.mem_map.1 hentries
    obtain ⟨bucket, hbucket⟩ := h _ hx
    rw [listed_eq hbucket, Prod.mk.injEq] at heq
    obtain ⟨rfl, rfl⟩ := heq
    have hslot := ((hmem _).1 hx).1
    have hkept : tag' ∈ t.buckets :=
      Std.ExtTreeMap.mem_iff_isSome_getElem?.2 (Option.isSome_iff_exists.2 ⟨p, hslot⟩)
    exact ⟨bucket, run_read_of_slot (ht tag' hkept) hslot hbucket, rfl⟩

/-! ## Buckets that were encrypted -/

section written

variable {plain sealed : Bucket size}

theorem entry_of_run_encrypt {E : Type} [CryptoEngine E] {b c : Block size} {e e' : E}
    {l : List Event} (h : Block.encrypt.run (b, e) = ⟨.ok (), (c, e'), l⟩) : c.entry = b.entry := by
  by_cases hn : b.isNormal
  · have hwhole := Block.encryptsWhole hn e
    have hid := hwhole.id_eq
    have hkind := hwhole.kind_eq
    rw [h] at hid hkind
    exact Prod.ext hid hkind
  · rw [Block.run_encrypt_of_not_isNormal hn, Outcome.mk.injEq, Prod.mk.injEq] at h
    rw [← h.2.1.1]

theorem map_entry_of_run_encrypt {E : Type} [CryptoEngine E] {e e' : E} {l : List Event}
    (h : (Op.forEach Block.encrypt).run (plain, e) = ⟨.ok (), (sealed, e'), l⟩) :
    sealed.map Block.entry = plain.map Block.entry := by
  have hentries : List.Forall₂ (fun b c : Block size => c.entry = b.entry) plain sealed :=
    Op.forall₂_of_run_forEach (I := fun _ => True)
      (fun _ _ _ _ _ _ hrun => ⟨entry_of_run_encrypt hrun, trivial⟩) trivial h
  rw [← List.forall₂_eq_eq_eq]
  exact List.forall₂_map_left_iff.2 (List.forall₂_map_right_iff.2 hentries.flip)

/-- Whatever a packed bucket is unpacked to is what was packed, as it is read back. -/
theorem eq_map_canonical_of_unpack {bucket : Bucket size} (hp : sealed.pack = .ok p)
    (h : p.unpack size = .ok bucket) : bucket = sealed.map Block.canonical := by
  have hd := PackedBucket.decompress_pack hp
  split at hd
  · rw [PackedBucket.unpack_of_decompress_error hd] at h
    cases h
  · split at hd
    · rw [PackedBucket.unpack_of_decompress hd, Bucket.decode_encode] at h
      exact (Except.ok.inj h).symm
    · rw [PackedBucket.unpack_of_decompress_error hd] at h
      cases h

/-- The packed bucket is of blocks that show the same identifiers and types as the plain
    ones, as encrypted blocks do. -/
def SealedForm (plain : Bucket size) (p : PackedBucket) : Prop :=
  ∃ sealed : Bucket size, sealed.map Block.entry = plain.map Block.entry ∧ sealed.pack = .ok p

theorem SealedForm.map_entry {bucket : Bucket size} (h : SealedForm plain p)
    (hplain : ∀ b ∈ plain, b.header.kind.Canonical) (hp : p.unpack size = .ok bucket) :
    bucket.map Block.entry = plain.map Block.entry := by
  obtain ⟨sealed, hentries, hpack⟩ := h
  have hsealed : ∀ b ∈ sealed, b.header.kind.Canonical := by
    intro b hb
    have hmem : b.entry ∈ plain.map Block.entry := hentries ▸ List.mem_map_of_mem hb
    obtain ⟨c, hc, hbc⟩ := List.mem_map.1 hmem
    have hkind : c.header.kind = b.header.kind := congrArg Prod.snd hbc
    exact hkind ▸ hplain c hc
  rw [eq_map_canonical_of_unpack hpack hp, Bucket.map_canonical_eq_self_iff.2 hsealed, hentries]

/-- The call brings a bucket to a node of which the blocks are encrypted before it is kept:
    by whoever writes it, or by the access that changed it. -/
inductive Encrypting (t : TreeStorage) :
    Storage.BackendCall TreeTag TreeUpkeep → TreeTag → Bucket size → Prop where
  | write {E : Type} [CryptoEngine E] {e e' : E} {plain sealed : Bucket size} {l : List Event}
      (tag : TreeTag)
      (hseal : (Op.forEach Block.encrypt).run (plain, e) = ⟨.ok (), (sealed, e'), l⟩) :
      Encrypting t (.command (.deposit tag (.write sealed))) tag plain
  | access {E β : Type} [CryptoEngine E] {e e₁ : E} {stored : Bucket size} {l : List Event}
      (tag : TreeTag) (change : Bucket size → β × Bucket size)
      (hplain : (readPlain size tag).run (t, e) = ⟨.ok stored, (t, e₁), l⟩) :
      Encrypting t (.access e tag change) tag (change stored).2

theorem Encrypting.exists_put {c : Storage.BackendCall TreeTag TreeUpkeep}
    (h : Encrypting t c tag plain) (hok : (c.op.run t).result = .ok ()) :
    ∃ p, SealedForm plain p ∧ Backend.inRange t tag ∧ (c.op.run t).state = Backend.put t tag p := by
  cases h with
  | @write E _ e e' _ sealed l _ hseal =>
    have hrun := run_write (Bucket.pack_eq_ok sealed) tag t
    change ((Storage.write tag sealed).run t).result = _ at hok
    change ∃ p, SealedForm plain p ∧ _ ∧ ((Storage.write tag sealed).run t).state = _
    by_cases hlength : sealed.length = (Backend.metadata t).bucketSize
    · by_cases hin : Backend.inRange t tag
      · rw [if_pos hlength, if_pos hin] at hrun
        rw [hrun]
        exact ⟨_, ⟨sealed, map_entry_of_run_encrypt hseal, Bucket.pack_eq_ok sealed⟩, hin, rfl⟩
      · rw [if_pos hlength, if_neg hin] at hrun
        rw [hrun] at hok
        cases hok
    · rw [if_neg hlength] at hrun
      rw [hrun] at hok
      cases hok
  | @access E β _ e e₁ stored l _ change hplain =>
    rw [Storage.BackendCall.run_access] at hok ⊢
    rcases hrun : (Storage.access tag change).run (t, e) with ⟨r, ⟨t', e'⟩, l'⟩
    rw [hrun] at hok
    rcases access_cases hrun with ⟨err, rfl, -⟩ | ⟨plain, e₂, r₂, l₁, l₂, hplain₂, hwrite, rfl⟩
    · cases hok
    · rw [hplain, Outcome.mk.injEq, Prod.mk.injEq] at hplain₂
      obtain ⟨hstored, ⟨-, rfl⟩, -⟩ := hplain₂
      obtain rfl := Except.ok.inj hstored
      rcases writePlain_cases hwrite with ⟨err, rfl, -⟩ |
        ⟨sealed, p, l₃, rfl, hseal, -, hpack, hin, hs⟩
      · cases hok
      · exact ⟨p, ⟨sealed, map_entry_of_run_encrypt hseal, hpack⟩, hin, hs⟩

/-- What is kept at a node stays until a call stores there. -/
theorem slot_session_of_not_mem {calls : List (Storage.BackendCall TreeTag TreeUpkeep)}
    (h : tag ∉ stored calls (session calls t).answers) :
    Backend.slot (session calls t).state tag = Backend.slot t tag := by
  induction calls generalizing t with
  | nil => rfl
  | cons c calls ih =>
    have hcons : tag ∉ stored (c :: calls) ((c.op.run t).result ::
        (session calls (c.op.run t).state).answers) := h
    rw [stored_cons, List.mem_append, not_or] at hcons
    rw [state_session_cons, ih hcons.2]
    rcases op_cases c t with ⟨hs, -⟩ | ⟨a, p, -, hs, hstored⟩
    · rw [hs]
    · rw [hstored, List.mem_singleton] at hcons
      rw [hs, Backend.slot_put_of_ne hcons.1]

end written

/-! ## The listing -/

theorem run_dump (size : Nat) (t : TreeStorage) :
    (dump size).run t = ⟨((t.buckets.toList.mapM (visit size)).run t).result,
      ((t.buckets.toList.mapM (visit size)).run t).state,
      .treeListed t.occupied :: ((t.buckets.toList.mapM (visit size)).run t).log⟩ := by
  simp only [dump, Op.run_bind, Op.run_get, Op.run_report]
  rfl

/-- What the listing of a tree comes to: all nodes that hold a bucket are listed, or those
    before the first of them with a bucket that cannot be unpacked. -/
inductive Dumped (size : Nat) (t : TreeStorage) :
    Outcome TreeStorage (List (TreeTag × Listing)) → Prop where
  | all {listing : List (TreeTag × Listing)}
      (hunpack : ∀ tag p, Backend.slot t tag = some p →
        ∃ bucket : Bucket size, p.unpack size = .ok bucket)
      (hlists : Lists size t (fun _ => True) listing) (hlength : listing.length = t.occupied) :
      Dumped size t ⟨.ok listing, t, .treeListed t.occupied :: listing.flatMap shown⟩
  | upTo {listing : List (TreeTag × Listing)} {tag : TreeTag} {p : PackedBucket} {err : StoreError}
      (hslot : Backend.slot t tag = some p) (herror : p.unpack size = .error err)
      (hunpack : ∀ tag' p', tag'.Before tag → Backend.slot t tag' = some p' →
        ∃ bucket : Bucket size, p'.unpack size = .ok bucket)
      (hlists : Lists size t (·.Before tag) listing) :
      Dumped size t
        ⟨.error err, t, .treeListed t.occupied :: listing.flatMap shown ++ [.nodeListed tag]⟩

theorem dumped_run_dump (size : Nat) (ht : ∀ tag ∈ t.buckets, Backend.inRange t tag) :
    Dumped size t ((dump size).run t) := by
  rw [run_dump]
  rcases unpack_or_first size t.buckets.toList with
    hall | ⟨before, ⟨tag, p⟩, after, err, hsplit, hbefore, hp⟩
  · rw [run_visits hall]
    refine .all (fun tag p hslot => hall (tag, p) (mem_nodes.2 hslot)) ?_ ?_
    · exact lists_map ht (pairwise_nodes t) (fun x => by rw [mem_nodes, and_true]) hall
    · rw [List.length_map, Std.ExtTreeMap.length_toList, occupied]
  · have hmem : (tag, p) ∈ t.buckets.toList := by
      rw [hsplit]
      exact List.mem_append_right _ List.mem_cons_self
    have hordered := pairwise_nodes t
    rw [hsplit, List.pairwise_append] at hordered
    rw [hsplit, run_visits_of_error hbefore hp]
    refine .upTo (mem_nodes.1 hmem) hp (fun tag' p' hlt hslot => ?_) ?_
    · exact hbefore (tag', p') ((mem_before_iff hsplit).2 ⟨hslot, hlt⟩)
    · exact lists_map ht hordered.1 (fun x => mem_before_iff hsplit) hbefore

/-- **Listings are faithful.**  Whatever was called before, the listing of a tree changes
    nothing; it has one entry for each node that holds a bucket, in the order of the nodes,
    and each entry is what a reading of the node returns.  It fails exactly if a bucket
    cannot be unpacked, with the error of the first that cannot, and the log ends at that
    node.  A bucket whose blocks were encrypted is listed as it was in the clear, until
    another is kept in its place. -/
theorem dump_faithful (id : UInt32) (height bucketSize : Nat) (hash : String) (t : TreeStorage)
    (ht : ((create id height bucketSize hash).run ()).result = .ok t)
    (calls : List (Storage.BackendCall TreeTag TreeUpkeep)) (size : Nat) :
    Dumped size (session calls t).state ((dump size).run (session calls t).state) ∧
    ∀ before c after tag (plain : Bucket size), calls = before ++ c :: after →
      Encrypting (session before t).state c tag plain →
      (c.op.run (session before t).state).result = .ok () →
      tag ∉ stored after (session after (session (before ++ [c]) t).state).answers →
      (∀ b ∈ plain, b.header.kind.Canonical) →
      ∀ among listing entries, Lists size (session calls t).state among listing →
        (tag, entries) ∈ listing → entries = plain.map Block.entry := by
  obtain ⟨rfl, -⟩ := eq_of_createTree ht
  refine ⟨dumped_run_dump size (inRange_of_mem_session calls fun tag h => ?_), ?_⟩
  · exact absurd h Std.ExtTreeMap.not_mem_empty
  · rintro before c after tag plain rfl hplain hok hlater hcanonical
    intro among listing entries hlists hmem
    -- What the call put there is still kept, and it is what a reading finds.
    obtain ⟨bucket, hread, rfl⟩ := hlists.read_eq tag entries hmem
    obtain ⟨-, q, hslot, hq⟩ := slot_of_read hread
    obtain ⟨p, hp, hin, hput⟩ := hplain.exists_put hok
    rw [state_session_append] at hlater
    have hkept := slot_session_of_not_mem hlater
    rw [state_session_append, state_session_cons] at hslot
    rw [state_session_cons, state_session_nil, hput] at hkept
    rw [hput, hkept, Backend.slot_put_self hin] at hslot
    obtain rfl := Option.some.inj hslot
    exact hp.map_entry hcanonical hq

theorem slot_put_eq_some {a : TreeTag} {q : PackedBucket} (hin : Backend.inRange t a) :
    Backend.slot (Backend.put t a p) tag = some q ↔
      tag = a ∧ q = p ∨ tag ≠ a ∧ Backend.slot t tag = some q := by
  by_cases h : tag = a
  · subst h
    simp [Backend.slot_put_self hin, eq_comm]
  · simp [Backend.slot_put_of_ne h, h]

/-- A byte that stands for the empty string is no bucket. -/
theorem unpack_empty (size : Nat) :
    PackedBucket.unpack size ⟨[0], 0⟩ = .error (.decompression 0) := by
  have hparse : Lz4.Frame.parse [0] = some ⟨[], []⟩ :=
    Lz4.Frame.parse_encode (f := ⟨[], []⟩) (List.forall_mem_nil _)
  exact PackedBucket.unpack_of_decompress_error (decompress_of_content (x := []) 0 hparse rfl)

/-- An encrypted block at the root of a tree and a bucket at a leaf that cannot be unpacked:
    the listing fails at the leaf, and shows the block before it. -/
theorem dump_faithful_two_nodes :
    let plain : Bucket 1 := [.new 7 .normal #v[0xAB]]
    ∃ t c, ((create 0 1 1 "tree").run ()).result = .ok t ∧
      let T := (session [c, .command (.deposit ⟨1, 1⟩ (.store ⟨[0], 0⟩))] t).state
      Encrypting t c ⟨0, 0⟩ plain ∧ (c.op.run t).result = .ok () ∧
      ∃ listing : List (TreeTag × Listing),
        (dump 1).run T = ⟨.error (.decompression 0), T,
          .treeListed T.occupied :: listing.flatMap shown ++ [.nodeListed ⟨1, 1⟩]⟩ ∧
        (⟨0, 0⟩, [(7, .normal)]) ∈ listing := by
  intro plain
  let t : TreeStorage := ⟨⟨0, nodeCount 1, 1, "tree", .tree⟩, 1, ∅⟩
  let e : AesGcmEngine := ⟨⟨Vector.replicate keySize 0⟩, ⟨fun _ => 0, none, 0⟩⟩
  obtain ⟨b, e', hrun, -, -⟩ :=
    Block.run_encrypt_of_admits (b := Block.new 7 .normal #v[0xAB]) (e := e) rfl rfl
  have hseal : (Op.forEach Block.encrypt).run (plain, e) = ⟨.ok (), ([b], e'), []⟩ :=
    Op.run_forEach_singleton hrun
  have hpack := Bucket.pack_eq_ok [b]
  generalize PackedBucket.mk _ _ = p at hpack
  have hfit : [b].length * wireSize 1 ≤ Bytes.maxLength := by
    rw [List.length_singleton]
    decide
  have hp := PackedBucket.unpack_pack (List.cons_ne_nil b []) hfit hpack
  -- The root is written and the leaf is stored at.
  let c : Storage.BackendCall TreeTag TreeUpkeep := .command (.deposit ⟨0, 0⟩ (.write [b]))
  let raw : Storage.BackendCall TreeTag TreeUpkeep := .command (.deposit ⟨1, 1⟩ (.store ⟨[0], 0⟩))
  have hc : Encrypting t c ⟨0, 0⟩ plain := .write ⟨0, 0⟩ hseal
  have hwrite : c.op.run t = ⟨.ok (), Backend.put t ⟨0, 0⟩ p, [.physicalWrite (.node ⟨0, 0⟩)]⟩ :=
    (run_write hpack (⟨0, 0⟩ : TreeTag) t).trans ((if_pos rfl).trans (if_pos rfl))
  have hok : (c.op.run t).result = .ok () := congrArg Outcome.result hwrite
  have hslot {tag : TreeTag} {q : PackedBucket} :
      Backend.slot (session [c, raw] t).state tag = some q ↔
        tag = ⟨1, 1⟩ ∧ q = ⟨[0], 0⟩ ∨ tag = ⟨0, 0⟩ ∧ q = p := by
    have hT : (session [c, raw] t).state =
        Backend.put (Backend.put t ⟨0, 0⟩ p) ⟨1, 1⟩ ⟨[0], 0⟩ := by
      rw [state_session_cons, hwrite]
      rfl
    have hnone : Backend.slot t tag = none := Std.ExtTreeMap.getElem?_empty
    rw [hT, slot_put_eq_some rfl, slot_put_eq_some rfl, hnone]
    constructor
    · rintro (hleaf | ⟨-, hroot | ⟨-, hother⟩⟩)
      · exact .inl hleaf
      · exact .inr hroot
      · cases hother
    · rintro (hleaf | ⟨rfl, rfl⟩)
      · exact .inl hleaf
      · exact .inr ⟨by decide, .inl ⟨rfl, rfl⟩⟩
  have hlater (r : Except StoreError Unit) : (⟨0, 0⟩ : TreeTag) ∉ stored [raw] [r] := by
    cases r with
    | error err => exact List.not_mem_nil
    | ok u => exact (by decide : (⟨0, 0⟩ : TreeTag) ∉ [⟨1, 1⟩])
  have hcanonical : ∀ b ∈ plain, b.header.kind.Canonical :=
    List.forall_mem_singleton.2 ⟨by decide, by decide⟩
  obtain ⟨hdumped, hlisted⟩ := dump_faithful 0 1 1 "tree" t rfl [c, raw] 1
  refine ⟨t, c, rfl, hc, hok, ?_⟩
  generalize (dump 1).run (session [c, raw] t).state = outcome at hdumped ⊢
  cases hdumped with
  | all hunpack =>
    obtain ⟨bucket, hbucket⟩ := hunpack ⟨1, 1⟩ ⟨[0], 0⟩ (hslot.2 (.inl ⟨rfl, rfl⟩))
    rw [unpack_empty] at hbucket
    cases hbucket
  | @upTo listing tag q err hfailed herror _ hlists =>
    rcases hslot.1 hfailed with ⟨rfl, rfl⟩ | ⟨rfl, rfl⟩
    · rw [unpack_empty, Except.error.injEq] at herror
      subst herror
      have hroot : Backend.slot (session [c, raw] t).state (⟨0, 0⟩ : TreeTag) = some p :=
        hslot.2 (.inr ⟨rfl, rfl⟩)
      have hfirst := (hlists.mem_iff ⟨0, 0⟩).2 ⟨by rw [hroot]; rfl, .inl (by decide)⟩
      obtain ⟨⟨tag, entries⟩, hmem, rfl⟩ := List.mem_map.1 hfirst
      obtain rfl := hlisted [] c [raw] _ plain rfl hc hok (hlater _) hcanonical _ _ _ hlists hmem
      exact ⟨listing, rfl, hmem⟩
    · rw [hp] at herror
      cases herror

end TreeStorage

end ObliviousStore
