/-
  What the library asks of an engine — the dialogue of each operation that has one
  (`Task.script`, `Task.converses`).

  The calls of a block, of a decoy and of a payload are written out; everything else
  follows how the operations are put together.
-/
import ObliviousStore.Bucket.Sample
import ObliviousStore.Proofs.Block.Sealing
import ObliviousStore.Proofs.Engine.Dialogue
import ObliviousStore.Proofs.Storage.Basic
import ObliviousStore.Stash

namespace ObliviousStore

variable {E σ τ α β S A : Type} {size : Nat}

/-! ## Blocks -/

namespace Block

/-- A normal block draws its initialisation vector and is encrypted under it; any
    other says nothing. -/
def encryption : Script (Block size) Unit := fun b =>
  if b.isNormal then
    .ask (.randomBytes ivSize) fun
      | .error err => .done (.error err, b)
      | .ok iv =>
        .ask (.encrypt iv b.header.associatedData b.data.toList) fun
          | .error err => .done (.error err, b.withIv iv)
          | .ok result => .done
            (if h : result.length = size + macTagSize then
              (.ok (), (b.withIv iv).withSealed result h)
            else (.error .encryption, b.withIv iv))
  else .done (.ok (), b)

/-- A normal block is decrypted; any other says nothing. -/
def decryption : Script (Block size) Unit := fun b =>
  if b.isNormal then
    .ask (.decrypt b.header.iv b.header.associatedData
        (b.data.toList ++ b.header.macTag.toList)) fun
      | .error err => .done (.error err, b)
      | .ok text => .done
        (if h : text.length = size then (.ok (), b.withText text h)
        else (.error .authentication, b))
  else .done (.ok (), b)

variable [CryptoEngine E]

theorem converses_encrypt : Op.Converses (encrypt : Op (Block size × E) Unit) encryption := by
  intro b e
  by_cases hn : b.isNormal
  · rw [run_encrypt_of_isNormal hn, encryption, if_pos hn]
    simp only [Dialogue.hold, Query.call]
    rcases CryptoEngine.randomBytes ivSize e with ⟨err | iv, e₁⟩
    · exact ⟨rfl, rfl⟩
    · have hcall : (b.withIv iv).sealCall e₁ =
          CryptoEngine.encrypt iv b.header.associatedData b.data.toList e₁ := rfl
      simp only [hcall, Dialogue.hold, Query.call]
      rcases CryptoEngine.encrypt iv b.header.associatedData b.data.toList e₁ with ⟨err | result, e₂⟩
      · exact ⟨rfl, rfl⟩
      · simp only
        split <;> exact ⟨rfl, rfl⟩
  · rw [run_encrypt_of_not_isNormal hn, encryption, if_neg hn]
    exact ⟨rfl, rfl⟩

theorem converses_decrypt : Op.Converses (decrypt : Op (Block size × E) Unit) decryption := by
  intro b e
  by_cases hn : b.isNormal
  · rw [run_decrypt_of_isNormal hn, decryption, if_pos hn]
    simp only [Dialogue.hold, Query.call, unsealCall]
    rcases CryptoEngine.decrypt b.header.iv b.header.associatedData
      (b.data.toList ++ b.header.macTag.toList) e with ⟨err | text, e₁⟩
    · exact ⟨rfl, rfl⟩
    · simp only
      split <;> exact ⟨rfl, rfl⟩
  · rw [run_decrypt_of_not_isNormal hn, decryption, if_neg hn]
    exact ⟨rfl, rfl⟩

end Block

/-! ## Stashes -/

namespace Stash

/-- A decoy is drawn as one string of bytes. -/
def decoy (size : Nat) : Script σ (Block size) :=
  (Script.query (.randomBytes (wireSize size))).bind fun x =>
    .silent fun s => ((Block.decode size x.toList).map Block.asDummy, s)

def decoys : Nat → Script (Stash size) Unit
  | 0 => .pure ()
  | n + 1 => (decoy size).bind fun b => fun stash => decoys n (stash ++ [b])

/-- What fills a stash up to `target` blocks. -/
def padding (target : Nat) : Script (Stash size) Unit := fun stash =>
  let missing := target - stash.length
  if stash.length < target then
    (Script.reserve (missing * wireSize size)).bind (fun _ => decoys missing) stash
  else .done (.ok (), stash)

variable [CryptoEngine E]

theorem converses_drawDecoy :
    Op.Converses (Op.onSnd (drawDecoy size) : Op (σ × E) (Block size)) (decoy size) := by
  rw [drawDecoy, Op.onSnd_bind]
  refine .bind (.query (.randomBytes (wireSize size))) fun x s e => ?_
  rw [Op.run_onSnd, Op.run_bind, Op.run_ofExcept]
  cases Block.decode size x.toList with
  | error err => exact ⟨rfl, rfl⟩
  | ok b => exact ⟨rfl, rfl⟩

theorem converses_addDecoys (n : Nat) :
    Op.Converses (addDecoys n : Op (Stash size × E) Unit) (decoys n) := by
  induction n with
  | zero => exact .pure ()
  | succ n ih => exact .bind converses_drawDecoy fun b stash e => ih (stash ++ [b]) e

theorem converses_pad (target : Nat) :
    Op.Converses (pad target : Op (Stash size × E) Unit) (padding target) := by
  intro stash e
  simp only [pad, padding, Op.run_bind, Op.run_get]
  split
  · have hreserve : Op.Converses (Op.reserve _ : Op (Stash size × E) Unit) _ :=
      .reserve ((target - stash.length) * wireSize size)
    exact hreserve.bind (fun _ => converses_addDecoys (target - stash.length)) stash e
  · exact ⟨rfl, rfl⟩

end Stash

/-! ## Sampled buckets -/

namespace Bucket

/-- A payload draws all its bytes but the first. -/
def payload (id : BlockId) : (size : Nat) → Script σ (Vector UInt8 size)
  | 0 => .pure (.emptyWithCapacity 0)
  | n + 1 => (Script.query (.randomBytes n)).bind fun rest =>
      .pure ((Vector.singleton id.toUInt8 ++ rest).cast (Nat.one_add n))

def numbered (size real offset i : Nat) : Script σ (Block size) :=
  if offset + i < UInt32.size then
    let id := UInt32.ofNat (offset + i)
    (payload id size).bind fun data => .pure (Block.new id (sampleKind real i) data)
  else .silent fun s => (.error .integerConversion, s)

/-- The payloads are drawn in the order of the numbers, the shuffle last. -/
def sampling (size total count offset : Nat) : Script σ (Bucket size) :=
  (Script.reserve (count * wireSize size)).bind fun _ =>
    (Script.mapM (numbered size (total / 2) offset) (List.range count)).bind fun blocks =>
      (Script.query (.shuffle count)).bind fun swaps => .pure (swaps.apply blocks)

variable [CryptoEngine E]

theorem converses_samplePayload (id : BlockId) (size : Nat) :
    Op.Converses (Op.onSnd (samplePayload id size) : Op (σ × E) _) (payload id size) := by
  cases size with
  | zero => exact .pure _
  | succ n =>
    rw [samplePayload, Op.onSnd_bind]
    exact .bind (.query (.randomBytes n)) fun rest => .pure _

theorem converses_sampleBlock (size real offset i : Nat) :
    Op.Converses (Op.onSnd (sampleBlock size real offset i) : Op (σ × E) _)
      (numbered size real offset i) := by
  rw [sampleBlock, numbered]
  split
  · rw [Op.onSnd_bind]
    exact .bind (converses_samplePayload _ size) fun data => .pure _
  · exact fun _ _ => ⟨rfl, rfl⟩

theorem converses_sample (size total count offset : Nat) :
    Op.Converses (Op.onSnd (sample size total count offset) : Op (σ × E) _)
      (sampling size total count offset) := by
  simp only [sample, Op.onSnd_bind, Op.onSnd_report, Op.onSnd_reserve]
  refine .report_bind _ (.bind (.reserve _) fun _ => .bind ?_ fun blocks => ?_)
  · exact .mapM (fun i => converses_sampleBlock size (total / 2) offset i) (List.range count)
  · exact .bind (.query (.shuffle count)) fun swaps => .pure (swaps.apply blocks)

end Bucket

/-! ## Accesses -/

namespace Storage

variable [Backend S A]

/-- A reading decrypts what it reads. -/
def reading (size : Nat) (a : A) : Script S (Bucket size) :=
  Script.bind (.silent fun s => (((read size a).run s).result, s)) fun stored =>
    .within stored (.forEach Block.decryption)

/-- A writing encrypts what it writes. -/
def writing (a : A) (bucket : Bucket size) : Script S Unit :=
  Script.bind (.within bucket (.forEach Block.encryption)) fun sealed =>
    .silent fun s => (((write a sealed).run s).result, ((write a sealed).run s).state)

def accessing (a : A) (change : Bucket size → β × Bucket size) : Script S β :=
  (reading size a).bind fun plain =>
    (writing a (change plain).2).bind fun _ => .pure (change plain).1

variable [CryptoEngine E]

theorem converses_readPlain (size : Nat) (a : A) :
    Op.Converses (readPlain size a : Op (S × E) (Bucket size)) (reading size a) := by
  refine .bind (fun s e => ⟨rfl, ?_⟩) fun stored => .within (.forEach Block.converses_decrypt) stored
  have hread : ((read size a).run s).state = s := by rw [run_read]
  exact congrArg (·, e) hread

theorem converses_writePlain (a : A) (bucket : Bucket size) :
    Op.Converses (writePlain a bucket : Op (S × E) Unit) (writing a bucket) :=
  .bind (.within (.forEach Block.converses_encrypt) bucket) fun sealed => .onFst (write a sealed)

theorem converses_access (a : A) (change : Bucket size → β × Bucket size) :
    Op.Converses (access a change : Op (S × E) β) (accessing a change) :=
  .bind (converses_readPlain size a) fun plain =>
    .bind (converses_writePlain a (change plain).2) fun _ => .pure (change plain).1

end Storage

/-! ## Tasks -/

/-- An operation of the library on an engine, beside a state `σ` of its own. -/
inductive Task (size : Nat) : Type → Type → Type 1 where
  | randomBytes (n : Nat) : Task size Unit (Vector UInt8 n)
  | shuffle (n : Nat) : Task size Unit Swaps
  | encrypt : Task size (Block size) Unit
  | decrypt : Task size (Block size) Unit
  | pad (target : Nat) : Task size (Stash size) Unit
  | sample (total count offset : Nat) : Task size Unit (Bucket size)
  | access {S A β : Type} [Backend S A] (a : A) (change : Bucket size → β × Bucket size) :
      Task size S β

namespace Task

def op [CryptoEngine E] : Task size σ α → Op (σ × E) α
  | randomBytes n => Op.onSnd (Op.call (CryptoEngine.randomBytes n))
  | shuffle n => Op.onSnd (Op.call (CryptoEngine.shuffle n))
  | encrypt => Block.encrypt
  | decrypt => Block.decrypt
  | pad target => Stash.pad target
  | sample total count offset => Op.onSnd (Bucket.sample size total count offset)
  | access a change => Storage.access a change

def script : Task size σ α → Script σ α
  | randomBytes n => .query (.randomBytes n)
  | shuffle n => .query (.shuffle n)
  | encrypt => Block.encryption
  | decrypt => Block.decryption
  | pad target => Stash.padding target
  | sample total count offset => Bucket.sampling size total count offset
  | access a change => Storage.accessing a change

theorem converses [CryptoEngine E] (k : Task size σ α) :
    Op.Converses (k.op : Op (σ × E) α) k.script := by
  cases k with
  | randomBytes n => exact .query (.randomBytes n)
  | shuffle n => exact .query (.shuffle n)
  | encrypt => exact Block.converses_encrypt
  | decrypt => exact Block.converses_decrypt
  | pad target => exact Stash.converses_pad target
  | sample total count offset => exact Bucket.converses_sample size total count offset
  | access a change => exact Storage.converses_access a change

/-- Operations one after another on one engine, each beside a state of its own and
    on whatever engine the one before left, also when that one failed: the calls
    they made (`Task.converses`), and the engine they left. -/
inductive Run [CryptoEngine E] (e : E) : List (Exchange E) → E → Prop where
  | start : Run e [] e
  | next {l : List (Exchange E)} {e₁ : E} (h : Run e l e₁) {size : Nat} {σ α : Type}
      (k : Task size σ α) (s : σ) :
      Run e (l ++ (k.script s).exchanges e₁) (k.op.run (s, e₁)).state.2

theorem Run.linked [CryptoEngine E] {e e' : E} {l : List (Exchange E)} (h : Run e l e') :
    Linked e l e' := by
  induction h with
  | start => rfl
  | @next l e₁ _ _ σ α k s ih =>
    have hlinked := Dialogue.linked_exchanges (k.script s) e₁
    rw [← congrArg Prod.snd (k.converses s e₁).2] at hlinked
    exact ih.append hlinked

end Task

/-! ## What holds of every task -/

/-- A property of dialogues that whatever is put together of them has too, so long
    as nothing is said after a failure. -/
structure Dialogue.Compositional (size : Nat)
    (P : ∀ σ α : Type, Dialogue (Except StoreError α × σ) → Prop) : Prop where
  done {σ α : Type} (r : Except StoreError α × σ) : P σ α (.done r)
  bind {σ α τ β : Type} {d : Dialogue (Except StoreError α × σ)}
    {f : Except StoreError α × σ → Dialogue (Except StoreError β × τ)} (hd : P σ α d)
    (herror : ∀ err s, ∃ t, f (.error err, s) = .done (.error err, t))
    (hok : ∀ a s, P τ β (f (.ok a, s))) : P τ β (d.bind f)
  randomBytes {σ : Type} (n : Nat) (s : σ) : P σ _ (Script.query (.randomBytes n) s)
  shuffle {σ : Type} (n : Nat) (s : σ) : P σ _ (Script.query (.shuffle n) s)
  encryption (b : Block size) : P _ _ (Block.encryption b)
  decryption (b : Block size) : P _ _ (Block.decryption b)

namespace Dialogue.Compositional

variable {P : ∀ σ α : Type, Dialogue (Except StoreError α × σ) → Prop}

theorem script_bind (hP : Compositional size P) {d : Script σ α} {f : α → Script σ β}
    (hd : ∀ s, P σ α (d s)) (hf : ∀ a s, P σ β (f a s)) (s : σ) : P σ β (d.bind f s) :=
  hP.bind (hd s) (fun _ s' => ⟨s', rfl⟩) hf

theorem script_mapM (hP : Compositional size P) {f : α → Script σ β}
    (hf : ∀ a s, P σ β (f a s)) (as : List α) (s : σ) : P σ (List β) (Script.mapM f as s) := by
  induction as generalizing s with
  | nil => exact hP.done _
  | cons a as ih =>
    exact hP.script_bind (hf a) (fun b => hP.script_bind ih fun bs _ => hP.done _) s

theorem script_forEach (hP : Compositional size P) {d : Script α Unit} (hd : ∀ a, P α Unit (d a))
    (as : List α) : P (List α) Unit (Script.forEach d as) := by
  induction as with
  | nil => exact hP.done _
  | cons a as ih =>
    refine hP.bind (hd a) (fun err a' => ⟨a' :: as, rfl⟩) fun u a' => ?_
    exact hP.bind ih (fun err as' => ⟨a' :: as', rfl⟩) fun u as' => hP.done _

theorem script_within (hP : Compositional size P) {d : Script α Unit} (hd : ∀ a, P α Unit (d a))
    (a : α) (s : σ) : P σ α (Script.within a d s) :=
  hP.bind (hd a) (fun _ _ => ⟨s, rfl⟩) fun _ _ => hP.done _

theorem decoys (hP : Compositional size P) (n : Nat) (stash : Stash size) :
    P (Stash size) Unit (Stash.decoys n stash) := by
  induction n generalizing stash with
  | zero => exact hP.done _
  | succ n ih =>
    refine hP.script_bind (fun s => ?_) (fun b s => ih (s ++ [b])) stash
    exact hP.script_bind (hP.randomBytes _) (fun x _ => hP.done _) s

theorem payload (hP : Compositional size P) (id : BlockId) (n : Nat) (s : σ) :
    P σ _ (Bucket.payload id n s) := by
  cases n with
  | zero => exact hP.done _
  | succ n => exact hP.script_bind (hP.randomBytes n) (fun rest _ => hP.done _) s

theorem numbered (hP : Compositional size P) (real offset i : Nat) (s : σ) :
    P σ _ (Bucket.numbered size real offset i s) := by
  unfold Bucket.numbered
  split
  · exact hP.script_bind (hP.payload _ size) (fun data _ => hP.done _) s
  · exact hP.done _

theorem script (hP : Compositional size P) (k : Task size σ α) (s : σ) : P σ α (k.script s) := by
  cases k with
  | randomBytes n => exact hP.randomBytes n s
  | shuffle n => exact hP.shuffle n s
  | encrypt => exact hP.encryption s
  | decrypt => exact hP.decryption s
  | pad target =>
    change P _ _ (Stash.padding target s)
    unfold Stash.padding
    split
    · exact hP.script_bind (fun _ => hP.done _) (fun _ => hP.decoys _) s
    · exact hP.done _
  | sample total count offset =>
    refine hP.script_bind (fun _ => hP.done _) (fun _ => ?_) s
    refine hP.script_bind (hP.script_mapM (fun i => hP.numbered _ offset i) _) fun blocks => ?_
    exact hP.script_bind (hP.shuffle count) fun swaps _ => hP.done _
  | access a change =>
    refine hP.script_bind (hP.script_bind (fun _ => hP.done _) fun stored => ?_) (fun plain => ?_) s
    · exact hP.script_within (hP.script_forEach hP.decryption) stored
    · refine hP.script_bind (hP.script_bind ?_ fun sealed _ => hP.done _) fun _ _ => hP.done _
      exact hP.script_within (hP.script_forEach hP.encryption) (change plain).2

end Dialogue.Compositional

end ObliviousStore
