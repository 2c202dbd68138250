/-
  Backends as finite maps.

  What a backend fetches at an address is told by the calls that succeeded so far
  (`latest`): it is the bucket last stored or written at this very address, unless
  the address was emptied since.  This holds of both backends and in every state
  that calls lead to, failed ones among them (`History`, `served_as_finite_map`).
-/
import ObliviousStore.Proofs.Storage.Refinement

namespace ObliviousStore

/-- What a tree does beside storing and fetching. -/
inductive TreeUpkeep where
  /-- It is listed, its blocks taken to have so many bytes of payload. -/
  | dump (size : Nat)

/-- What a flat backend does beside storing and fetching. -/
inductive SqrtUpkeep where
  | clearShelter

namespace Storage

/-! ## Calls -/

/-- A backend with calls `X` of its own, which at most empty some addresses. -/
class Upkeep (S : Type) (A X : outParam Type) [Backend S A] where
  op : X → Op S Unit
  /-- The addresses that a call empties. -/
  empties : X → A → Bool
  metadata_op {x : X} {s : S} : Backend.metadata ((op x).run s).state = Backend.metadata s
  inRange_op {x : X} {s : S} {a : A} :
    Backend.inRange ((op x).run s).state a = Backend.inRange s a
  slot_op {x : X} {s : S} {a : A} :
    Backend.slot ((op x).run s).state a = if empties x a then none else Backend.slot s a
  state_of_error {x : X} {s : S} {err : StoreError} (h : ((op x).run s).result = .error err) :
    ((op x).run s).state = s

/-- What may be put at an address: a packed bucket, or one that is packed first. -/
inductive Deposit where
  | store (p : PackedBucket)
  | write {size : Nat} (bucket : Bucket size)

inductive Command (A X : Type) where
  | deposit (a : A) (d : Deposit)
  | fetch (a : A)
  | read (size : Nat) (a : A)
  | upkeep (x : X)

variable {S A X : Type} [Backend S A]

def Deposit.op (d : Deposit) (a : A) : Op S Unit :=
  match d with
  | store p => Storage.store a p
  | write bucket => Storage.write a bucket

/-- The packed bucket that is kept when the call succeeds. -/
def Deposit.packed? : Deposit → Option PackedBucket
  | store p => some p
  | write bucket => bucket.pack.toOption

/-- The call as an operation, whatever it answers. -/
def Command.op [Upkeep S A X] : Command A X → Op S Unit
  | deposit a d => d.op a
  | fetch a => do
    let _ ← Storage.fetch a
  | read size a => do
    let _ ← Storage.read size a
  | upkeep x => Upkeep.op x

/-- Calls from the backend `t` lead to a state; those that succeeded are kept, the
    newest first. -/
inductive History [Upkeep S A X] (t : S) : List (Command A X) → S → Prop where
  | start : History t [] t
  | succeeded {s s' : S} {c : Command A X} {history : List (Command A X)} {l : List Event}
      (h : History t history s) (hrun : c.op.run s = ⟨.ok (), s', l⟩) :
      History t (c :: history) s'
  | failed {s s' : S} {c : Command A X} {history : List (Command A X)} {err : StoreError}
      {l : List Event} (h : History t history s) (hrun : c.op.run s = ⟨.error err, s', l⟩) :
      History t history s'

/-- The bucket that the calls of a history, newest first, leave at an address: the
    one most recently stored or written there, unless the address was emptied
    since. -/
def latest (S : Type) {A X : Type} [Backend S A] [Upkeep S A X] [DecidableEq A] (a : A) :
    List (Command A X) → Option PackedBucket
  | [] => none
  | .deposit b d :: earlier => if b = a then d.packed? else latest S a earlier
  | .upkeep x :: earlier => if Upkeep.empties S x a then none else latest S a earlier
  | .fetch _ :: earlier | .read _ _ :: earlier => latest S a earlier

variable {s s' t : S} {a b : A} {d d' : Deposit}

/-! ## Deposits -/

/-- What a deposit comes to in a backend with `n` blocks to a bucket. -/
def Deposit.content (n : Nat) : Deposit → Except StoreError PackedBucket
  | store p => .ok p
  | write bucket =>
    if bucket.length = n then bucket.pack else .error (.invalidBucketLength n bucket.length)

theorem Deposit.packed?_of_content {n : Nat} {p : PackedBucket} (h : d.content n = .ok p) :
    d.packed? = some p := by
  cases d with
  | store q => exact congrArg some (Except.ok.inj h)
  | write bucket =>
    simp only [content] at h
    split at h
    · rw [packed?, h]
      rfl
    · exact absurd h (by simp)

theorem run_store (a : A) (p : PackedBucket) (s : S) :
    (store a p).run s =
      if Backend.inRange s a then
        ⟨.ok (), Backend.put s a p, [.physicalWrite (Backend.location S a)]⟩
      else ⟨.error .addressOutOfBounds, s, []⟩ := by
  simp only [store, Op.run_bind, Op.run_get]
  split <;> rfl

theorem Deposit.run_op (d : Deposit) (a : A) (s : S) :
    (d.op a).run s =
      match d.content (Backend.metadata s).bucketSize with
      | .error err => ⟨.error err, s, []⟩
      | .ok p => (Storage.store a p).run s := by
  cases d with
  | store p => rfl
  | write bucket =>
    have hpack := Bucket.pack_eq_ok bucket
    simp only [op, run_write hpack, content, run_store]
    split
    · rw [hpack]
    · rfl

/-- What a deposit keeps at an address, if it succeeds. -/
def Deposit.kept (d : Deposit) (s : S) (a : A) : Option PackedBucket :=
  if Backend.inRange s a then (d.content (Backend.metadata s).bucketSize).toOption else none

/-- What a deposit does: it fails and changes nothing, or it is kept. -/
theorem Deposit.op_cases (d : Deposit) (a : A) (s : S) :
    (d.kept s a = none ∧ ∃ err l, (d.op a).run s = ⟨.error err, s, l⟩) ∨
    ∃ p l, d.kept s a = some p ∧ d.packed? = some p ∧ Backend.inRange s a ∧
      (d.op a).run s = ⟨.ok (), Backend.put s a p, l⟩ := by
  rw [run_op, kept]
  cases hc : d.content (Backend.metadata s).bucketSize with
  | error err =>
    refine .inl ⟨?_, err, [], rfl⟩
    split <;> rfl
  | ok p =>
    simp only [run_store]
    split
    · rename_i hin
      exact .inr ⟨p, _, rfl, packed?_of_content hc, hin, rfl⟩
    · exact .inl ⟨rfl, _, [], rfl⟩

theorem Deposit.state_op (d : Deposit) (a : A) (s : S) :
    ((d.op a).run s).state = (d.kept s a).elim s (Backend.put s a) := by
  rcases d.op_cases a s with ⟨hk, err, l, h⟩ | ⟨p, l, hk, -, -, h⟩ <;> rw [h, hk] <;> rfl

theorem Deposit.metadata_op (d : Deposit) (a : A) (s : S) :
    Backend.metadata ((d.op a).run s).state = Backend.metadata s := by
  rw [state_op]
  cases d.kept s a with
  | none => rfl
  | some p => exact Backend.metadata_put

theorem Deposit.inRange_op (d : Deposit) (a b : A) (s : S) :
    Backend.inRange ((d.op a).run s).state b = Backend.inRange s b := by
  rw [state_op]
  cases d.kept s a with
  | none => rfl
  | some p => exact Backend.inRange_put

theorem Deposit.slot_op_of_ne (d : Deposit) (s : S) (h : b ≠ a) :
    Backend.slot ((d.op a).run s).state b = Backend.slot s b := by
  rw [state_op]
  cases d.kept s a with
  | none => rfl
  | some p => exact Backend.slot_put_of_ne h

theorem Deposit.kept_op (d d' : Deposit) (a b : A) (s : S) :
    d'.kept ((d.op a).run s).state b = d'.kept s b := by
  rw [kept, kept, metadata_op, inRange_op]

theorem Deposit.result_op (d d' : Deposit) (a b : A) (s : S) :
    ((d'.op b).run ((d.op a).run s).state).result = ((d'.op b).run s).result := by
  rw [run_op d', run_op d', metadata_op]
  cases d'.content (Backend.metadata s).bucketSize with
  | error err => rfl
  | ok p =>
    simp only [run_store, inRange_op]
    split <;> rfl

/-- Deposits at two addresses lead to the same state in either order. -/
theorem Deposit.state_comm (h : a ≠ b) (d d' : Deposit) (s : S) :
    ((d'.op b).run ((d.op a).run s).state).state =
      ((d.op a).run ((d'.op b).run s).state).state := by
  rw [state_op, kept_op, state_op d a, state_op d a, kept_op, state_op d' b]
  cases d.kept s a with
  | none => cases d'.kept s b <;> rfl
  | some p =>
    cases d'.kept s b with
    | none => rfl
    | some q => exact Backend.put_comm h

theorem fetch_congr (hin : Backend.inRange s' a = Backend.inRange s a)
    (hslot : Backend.slot s' a = Backend.slot s a) :
    ((fetch a).run s').result = ((fetch a).run s).result := by
  rw [run_fetch, run_fetch, hin, hslot]
  split <;> rfl

/-! ## Histories -/

section history

variable [Upkeep S A X] {c : Command A X} {history : List (Command A X)}

theorem state_fetch (a : A) (s : S) : ((fetch a).run s).state = s := by
  rw [run_fetch]
  split <;> rfl

theorem state_read (size : Nat) (a : A) (s : S) : ((read size a).run s).state = s := by
  rw [run_read]

theorem Command.state_of_error {err : StoreError} (h : (c.op.run s).result = .error err) :
    (c.op.run s).state = s := by
  cases c with
  | deposit a d =>
    rcases d.op_cases a s with ⟨-, err', l, hrun⟩ | ⟨p, l, -, -, -, hrun⟩
    · rw [op, hrun]
    · rw [op, hrun] at h
      exact absurd h (by simp)
  | fetch a => rw [op, Op.run_discard, state_fetch]
  | read size a => rw [op, Op.run_discard, state_read]
  | upkeep x => exact Upkeep.state_of_error h

theorem Command.metadata_op (c : Command A X) (s : S) :
    Backend.metadata (c.op.run s).state = Backend.metadata s := by
  cases c with
  | deposit a d => exact d.metadata_op a s
  | fetch a => rw [op, Op.run_discard, state_fetch]
  | read size a => rw [op, Op.run_discard, state_read]
  | upkeep x => exact Upkeep.metadata_op

theorem Command.inRange_op (c : Command A X) (s : S) (b : A) :
    Backend.inRange (c.op.run s).state b = Backend.inRange s b := by
  cases c with
  | deposit a d => exact d.inRange_op a b s
  | fetch a => rw [op, Op.run_discard, state_fetch]
  | read size a => rw [op, Op.run_discard, state_read]
  | upkeep x => exact Upkeep.inRange_op

theorem History.stored (h : History t history s) (p : PackedBucket) (hin : Backend.inRange s a) :
    History t (.deposit a (.store p) :: history) (Backend.put s a p) :=
  h.succeeded ((run_store a p s).trans (if_pos hin))

variable [DecidableEq A]

theorem Command.slot_op_of_ok (h : (c.op.run s).result = .ok ())
    (hslot : Backend.slot s a = latest S a history) :
    Backend.slot (c.op.run s).state a = latest S a (c :: history) := by
  cases c with
  | deposit b d =>
    rw [latest]
    split
    · rename_i hb
      subst hb
      rcases d.op_cases b s with ⟨-, err, l, hrun⟩ | ⟨p, l, -, hp, hin, hrun⟩
      · rw [op, hrun] at h
        exact absurd h (by simp)
      · rw [op, hrun, hp]
        exact Backend.slot_put_self hin
    · rename_i hb
      exact (d.slot_op_of_ne s (Ne.symm hb)).trans hslot
  | fetch b => rw [op, Op.run_discard, state_fetch, hslot, latest]
  | read size b => rw [op, Op.run_discard, state_read, hslot, latest]
  | upkeep x => rw [latest, op, Upkeep.slot_op, hslot]

/-- What every call keeps: the parameters of the backend, and that every slot holds
    what the history says. -/
structure Kept (t : S) (history : List (Command A X)) (s : S) : Prop where
  metadata_eq : Backend.metadata s = Backend.metadata t
  inRange_eq : ∀ a, Backend.inRange s a = Backend.inRange t a
  slot_eq : ∀ a, Backend.slot s a = latest S a history

theorem History.kept (hempty : ∀ a, Backend.slot t a = none) (h : History t history s) :
    Kept t history s := by
  induction h with
  | start => exact ⟨rfl, fun _ => rfl, hempty⟩
  | @succeeded s s' c history l _ hrun ih =>
    have hm := c.metadata_op s
    have hin := c.inRange_op s
    have hslot (a : A) := Command.slot_op_of_ok (by rw [hrun]) (ih.slot_eq a)
    rw [hrun] at hm hin hslot
    exact ⟨hm.trans ih.metadata_eq, fun a => (hin a).trans (ih.inRange_eq a), hslot⟩
  | @failed s s' c history err l _ hrun ih =>
    have hs : (c.op.run s).state = s := Command.state_of_error (by rw [hrun])
    rw [hrun] at hs
    obtain rfl : s' = s := hs
    exact ih

/-- A state of a backend is told by the calls that led to it, and what can be put there
    by its parameters alone. -/
structure Served (t : S) (history : List (Command A X)) (s : S) : Prop where
  fetch : ∀ a, ((fetch a).run s).result =
    if Backend.inRange t a then (latest S a history).elim (.error .bucketNotFound) .ok
    else .error .addressOutOfBounds
  stored : ∀ (a : A) (p : PackedBucket), ((store a p).run s).result =
    if Backend.inRange t a then .ok () else .error .addressOutOfBounds
  written : ∀ {size : Nat} (a : A) (bucket : Bucket size),
    bucket.length = (Backend.metadata t).bucketSize → ((write a bucket).run s).result =
      if Backend.inRange t a then .ok () else .error .addressOutOfBounds
  wrongLength : ∀ {size : Nat} (a : A) (bucket : Bucket size),
    bucket.length ≠ (Backend.metadata t).bucketSize →
    (write a bucket).run s =
      ⟨.error (.invalidBucketLength (Backend.metadata t).bucketSize bucket.length), s, []⟩
  failed : ∀ (c : Command A X) (err : StoreError), (c.op.run s).result = .error err →
    (c.op.run s).state = s
  elsewhere : ∀ (a b : A) (d : Deposit), b ≠ a →
    ((Storage.fetch b).run ((d.op a).run s).state).result = ((Storage.fetch b).run s).result
  commute : ∀ (a b : A) (d d' : Deposit), a ≠ b →
    ((d'.op b).run ((d.op a).run s).state).state =
        ((d.op a).run ((d'.op b).run s).state).state ∧
      ((d'.op b).run ((d.op a).run s).state).result = ((d'.op b).run s).result

theorem Kept.served (h : Kept t history s) : Served t history s where
  fetch a := by
    rw [run_fetch, h.inRange_eq, h.slot_eq]
    split <;> rfl
  stored a p := by
    rw [run_store, h.inRange_eq]
    split <;> rfl
  written a bucket hlength := by
    rw [run_write (Bucket.pack_eq_ok bucket), h.metadata_eq, if_pos hlength, h.inRange_eq]
    split <;> rfl
  wrongLength a bucket hlength := by
    rw [run_write (Bucket.pack_eq_ok bucket), h.metadata_eq, if_neg hlength]
  failed c err := Command.state_of_error
  elsewhere a b d hne := fetch_congr (d.inRange_op a b s) (d.slot_op_of_ne s hne)
  commute a b d d' hne := ⟨Deposit.state_comm hne d d' s, d.result_op d' a b s⟩

end history

end Storage

/-! ## The two backends -/

namespace TreeStorage

theorem keeps_listNode {σ : Type} (I : σ → Prop) (size : Nat) (tag : TreeTag) (p : PackedBucket) :
    Op.Keeps I (listNode (σ := σ) size tag p) := by
  unfold listNode
  refine .bind (.report I _) fun _ => .bind (.ofExcept I _) fun bucket => .bind ?_ fun _ => .pure I _
  exact .listForM (fun _ => .report I _) _

theorem state_dump (size : Nat) (t : TreeStorage) : ((dump size).run t).state = t := by
  have hdump : Op.Keeps (· = t) (dump size) := by
    unfold dump
    refine .bind (fun _ h => h) fun t' => .bind (.report _ _) fun _ => .listMapM ?_ _
    rintro ⟨tag, p⟩
    exact .bind (keeps_listNode _ size tag p) fun _ => .pure _ _
  exact hdump t rfl

instance : Storage.Upkeep TreeStorage TreeTag TreeUpkeep where
  op
    | .dump size => do
      let _ ← dump size
  empties _ _ := false
  metadata_op {x t} := by
    cases x
    rw [Op.run_discard, state_dump]
  inRange_op {x t a} := by
    cases x
    rw [Op.run_discard, state_dump]
  slot_op {x t a} := by
    cases x
    rw [Op.run_discard, state_dump]
    rfl
  state_of_error {x t err} _ := by
    cases x
    rw [Op.run_discard, state_dump]

end TreeStorage

namespace SqrtStorage

def withoutShelter (s : SqrtStorage) : SqrtStorage :=
  { s with shelter := s.shelter.map fun _ => none }

theorem run_clearShelter (s : SqrtStorage) :
    clearShelter.run s = ⟨.ok (), s.withoutShelter, [.shelterCleared s.shelter.size]⟩ := rfl

theorem inRange_withoutShelter (s : SqrtStorage) (a : SqrtAddress) :
    Backend.inRange s.withoutShelter a = Backend.inRange s a := by
  rcases a with ⟨⟨⟩, i⟩
  · rfl
  · rfl
  · simp only [Backend.inRange, slots, withoutShelter, Array.size_map]
    rfl

theorem slot_withoutShelter (s : SqrtStorage) (a : SqrtAddress) :
    Backend.slot s.withoutShelter a =
      if a.region = .shelter then none else Backend.slot s a := by
  rcases a with ⟨⟨⟩, i⟩
  · rfl
  · rfl
  · simp only [Backend.slot, slots, withoutShelter, Array.getElem?_map, if_true]
    cases s.shelter[i.toNat]? <;> rfl

instance : Storage.Upkeep SqrtStorage SqrtAddress SqrtUpkeep where
  op
    | .clearShelter => clearShelter
  empties _ a := a.region = .shelter
  metadata_op {x s} := by
    cases x
    rw [run_clearShelter]
    rfl
  inRange_op {x s a} := by
    cases x
    rw [run_clearShelter, inRange_withoutShelter]
  slot_op {x s a} := by
    cases x
    simp only [run_clearShelter, slot_withoutShelter, decide_eq_true_eq]
  state_of_error {x s err} h := by
    cases x
    rw [run_clearShelter] at h
    exact absurd h (by simp)

end SqrtStorage

namespace Storage

/-- **Both backends are finite maps.**  After any calls to a backend as it was set up,
    each address that it has gives the bucket last stored or written there, unless it
    was emptied since, and no other address gives one.  Any packed bucket can be stored
    at an address that it has, and any bucket of the right length written there.  A call
    that fails changes nothing, a bucket of the wrong length fails anywhere, and what is
    put at one address neither shows at another nor depends on what is put there. -/
theorem served_as_finite_map :
    (∀ (id : UInt32) (height bucketSize : Nat) (hash : String) (t : TreeStorage),
      ((TreeStorage.create id height bucketSize hash).run ()).result = .ok t →
      (Backend.metadata t).bucketSize = bucketSize ∧
      (∀ level node, Backend.inRange t ⟨level, node⟩ ↔
        level.toNat ≤ height ∧ node.toNat < TreeStorage.width level.toNat) ∧
      ∀ (history : List (Command TreeTag TreeUpkeep)) (s : TreeStorage),
        History t history s → Served t history s) ∧
    (∀ (id : UInt32) (capacity bucketSize squaredM : Nat) (hash : String) (t : SqrtStorage),
      ((SqrtStorage.create id capacity bucketSize squaredM hash).run ()).result = .ok t →
      (Backend.metadata t).bucketSize = bucketSize ∧
      (∀ region offset, Backend.inRange t ⟨region, offset⟩ ↔
        offset.toNat < if region = .mainMemory then capacity else squaredM) ∧
      ∀ (history : List (Command SqrtAddress SqrtUpkeep)) (s : SqrtStorage),
        History t history s → Served t history s) := by
  constructor
  · intro id height bucketSize hash t ht
    have hempty := (empty_of_createTree ht).1
    obtain ⟨rfl, -⟩ := eq_of_createTree ht
    refine ⟨rfl, fun level node => ?_, fun history s h => ?_⟩
    · simp only [Backend.inRange, TreeStorage.hasNode, Bool.and_eq_true, decide_eq_true_eq]
    · exact (h.kept hempty).served
  · intro id capacity bucketSize squaredM hash t ht
    have hempty := (empty_of_createSqrt ht).1
    obtain ⟨rfl, -⟩ := eq_of_createSqrt ht
    refine ⟨rfl, fun region offset => ?_, fun history s h => ?_⟩
    · cases region <;>
        simp [Backend.inRange, SqrtStorage.slots]
    · exact (h.kept hempty).served

/-- A packed bucket in one leaf of a tree and a bucket that was written in the other; and
    one in the main memory and one in the shelter before the shelter is emptied. -/
theorem served_as_finite_map_shelter :
    let p : PackedBucket := ⟨[0], 0⟩
    let bucket : Bucket 1 := [.new 7 .normal #v[0xAB]]
    let left : Command TreeTag TreeUpkeep := .deposit ⟨1, 0⟩ (.write bucket)
    let right : Command TreeTag TreeUpkeep := .deposit ⟨1, 1⟩ (.store p)
    let main : Command SqrtAddress SqrtUpkeep := .deposit ⟨.mainMemory, 0⟩ (.store p)
    let shelter : Command SqrtAddress SqrtUpkeep := .deposit ⟨.shelter, 0⟩ (.store p)
    let clear : Command SqrtAddress SqrtUpkeep := .upkeep .clearShelter
    (∃ t s q, ((TreeStorage.create 0 1 1 "tree").run ()).result = .ok t ∧
      bucket.length = (Backend.metadata t).bucketSize ∧ Bucket.pack bucket = .ok q ∧
      History t [left, right] s ∧
      ((fetch ⟨1, 0⟩).run s).result = .ok q ∧ ((fetch ⟨1, 1⟩).run s).result = .ok p ∧
      ((fetch ⟨0, 1⟩).run s).result = .error .addressOutOfBounds ∧
      ((fetch ⟨0, 0⟩).run s).result = .error .bucketNotFound) ∧
    ∃ t s, ((SqrtStorage.create 0 1 1 1 "flat").run ()).result = .ok t ∧
      History t [clear, shelter, main] s ∧
      ((fetch ⟨.mainMemory, 0⟩).run s).result = .ok p ∧
      ((fetch ⟨.shelter, 0⟩).run s).result = .error .bucketNotFound := by
  intro p bucket left right main shelter clear
  constructor
  · let t : TreeStorage := ⟨⟨0, TreeStorage.nodeCount 1, 1, "tree", .tree⟩, 1, ∅⟩
    have hserved := (served_as_finite_map.1 0 1 1 "tree" t rfl).2.2
    have hright : History t [right] (Backend.put t ⟨1, 1⟩ p) := History.start.stored p rfl
    obtain ⟨s, l, hrun⟩ := Op.exists_run_eq ((hserved _ _ hright).written ⟨1, 0⟩ bucket rfl)
    have h := hright.succeeded (c := left) hrun
    have hs := hserved _ _ h
    have hpack := Bucket.pack_eq_ok bucket
    have hleft := hs.fetch ⟨1, 0⟩
    rw [latest, if_pos rfl, Deposit.packed?, hpack] at hleft
    exact ⟨t, s, _, rfl, rfl, hpack, h, hleft, hs.fetch ⟨1, 1⟩, hs.fetch ⟨0, 1⟩, hs.fetch ⟨0, 0⟩⟩
  · let t : SqrtStorage := ⟨⟨0, 1, 1, "flat", .flat⟩, 1, #[none], #[none], #[none]⟩
    have h : History t [shelter, main]
        (Backend.put (Backend.put t ⟨.mainMemory, 0⟩ p) ⟨.shelter, 0⟩ p) :=
      (History.start.stored p rfl).stored p rfl
    have hclear := h.succeeded (c := clear) (SqrtStorage.run_clearShelter _)
    have hs := (served_as_finite_map.2 0 1 1 1 "flat" t rfl).2.2 _ _ hclear
    exact ⟨t, _, rfl, hclear, hs.fetch ⟨.mainMemory, 0⟩, hs.fetch ⟨.shelter, 0⟩⟩

end Storage

end ObliviousStore
