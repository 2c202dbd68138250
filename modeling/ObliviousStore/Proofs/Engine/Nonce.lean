/-
  Initialisation vectors come from randomness that is never used again
  (`nonces_never_reused`).

  Each encryption comes right after the draw of its initialisation vector, whatever
  the engine (`FreshNonces`), and each call to the engine of the library takes the
  bytes of its tape from where the call before it stopped (`Query.Takes`).  So the
  initialisation vectors of a run are intervals of the tape that do not overlap.
-/
import ObliviousStore.Engine.AesGcm
import ObliviousStore.Proofs.Bucket.Sealing
import ObliviousStore.Proofs.Engine.Task
import ObliviousStore.Proofs.Random.Tape
import ObliviousStore.Proofs.Storage.Access

namespace ObliviousStore

variable {E σ τ α β S A : Type} {size : Nat}

/-! ## Encryptions among the calls -/

/-- The initialisation vector of an encryption. -/
def Query.nonce? : Query → Option Iv
  | encrypt iv _ _ => some iv
  | randomBytes _ | decrypt .. | shuffle _ => none

/-- The initialisation vectors that the calls encrypt under, in order. -/
def nonces (l : List (Exchange E)) : List Iv := l.filterMap fun c => c.query.nonce?

theorem nonces_cons (c : Exchange E) (l : List (Exchange E)) :
    nonces (c :: l) = c.query.nonce?.toList ++ nonces l := by
  cases h : c.query.nonce? with
  | none => exact List.filterMap_cons_none h
  | some iv => exact List.filterMap_cons_some h

theorem nonces_append (l l' : List (Exchange E)) : nonces (l ++ l') = nonces l ++ nonces l' :=
  List.filterMap_append

theorem Block.nonces_decryption [CryptoEngine E] (b : Block size) (e : E) :
    nonces ((decryption b).exchanges e) = [] := by
  unfold decryption
  split
  · simp only [Dialogue.exchanges, Query.call]
    rcases CryptoEngine.decrypt b.header.iv b.header.associatedData
      (b.data.toList ++ b.header.macTag.toList) e with ⟨err | text, e₁⟩
    · rfl
    · rfl
  · rfl

/-- Every encryption comes right after the draw of its initialisation vector, and no
    draw serves two encryptions. -/
inductive FreshNonces : List (Exchange E) → Prop where
  | nil : FreshNonces []
  | other {c : Exchange E} {l : List (Exchange E)} (hc : c.query.nonce? = none)
      (hl : FreshNonces l) : FreshNonces (c :: l)
  | drawn {iv : Iv} {associated text : Bytes} {e e₁ e₂ e₃ : E} {answer : Except StoreError Bytes}
      {l : List (Exchange E)} (hl : FreshNonces l) :
      FreshNonces (⟨.randomBytes ivSize, e, .ok iv, e₁⟩ ::
        ⟨.encrypt iv associated text, e₂, answer, e₃⟩ :: l)

namespace FreshNonces

theorem append {l l' : List (Exchange E)} (h : FreshNonces l) (h' : FreshNonces l') :
    FreshNonces (l ++ l') := by
  induction h with
  | nil => exact h'
  | other hc _ ih => exact .other hc ih
  | drawn _ ih => exact .drawn ih

theorem of_nonces_eq_nil {l : List (Exchange E)} (h : nonces l = []) : FreshNonces l := by
  induction l with
  | nil => exact .nil
  | cons c l ih =>
    rw [nonces_cons, List.append_eq_nil_iff, Option.toList_eq_nil_iff] at h
    exact .other h.1 (ih h.2)

variable [CryptoEngine E]

theorem encryption (b : Block size) (e : E) : FreshNonces ((Block.encryption b).exchanges e) := by
  unfold Block.encryption
  split
  · simp only [Dialogue.exchanges, Query.call]
    rcases CryptoEngine.randomBytes ivSize e with ⟨err | iv, e₁⟩
    · exact .other rfl .nil
    · simp only [Dialogue.exchanges, Query.call]
      rcases CryptoEngine.encrypt iv b.header.associatedData b.data.toList e₁ with ⟨err | result, e₂⟩
      · exact .drawn .nil
      · exact .drawn .nil
  · exact .nil

theorem compositional (size : Nat) : Dialogue.Compositional size fun _ _ d =>
    ∀ e : E, FreshNonces (d.exchanges e) where
  done _ _ := .nil
  bind {_ _ _ _ d f} hd herror hok e := by
    rw [Dialogue.exchanges_bind]
    refine (hd e).append ?_
    rcases (d.hold e).1 with ⟨err | a, s⟩
    · obtain ⟨t, ht⟩ := herror err s
      rw [ht]
      exact .nil
    · exact hok a s _
  randomBytes _ _ _ := .other rfl .nil
  shuffle _ _ _ := .other rfl .nil
  encryption := encryption
  decryption b e := of_nonces_eq_nil (Block.nonces_decryption b e)

end FreshNonces

/-! ## What the calls take from the tape -/

/-- The engine after `n` more bytes of its tape were drawn. -/
def AesGcmEngine.advance (e : AesGcmEngine) (n : Nat) : AesGcmEngine :=
  { e with tape := e.tape.advance n }

/-- What an answer was made of, and where it leaves the engine: random bytes are the
    next of the tape, a shuffle is made of the next words, and nothing else takes
    anything, a draw that fails included. -/
def Query.Takes (e : AesGcmEngine) :
    (q : Query) → Except StoreError q.Reply → AesGcmEngine → Prop
  | randomBytes n, .ok x, e' => x = e.tape.interval e.tape.position n ∧ e' = e.advance n
  | randomBytes _, .error _, e' => e' = e
  | encrypt .., _, e' | decrypt .., _, e' => e' = e
  | shuffle n, answer, e' => ∃ k, e' = e.advance (4 * k) ∧
      ∀ swaps, answer = .ok swaps → Spends (n - 1) (e.tape.words k) swaps

def Exchange.Draws (c : Exchange AesGcmEngine) : Prop := c.query.Takes c.before c.answer c.after

namespace AesGcmEngine

variable {e e' : AesGcmEngine} {l : List (Exchange AesGcmEngine)}

theorem randomBytes_eq (n : Nat) (e : AesGcmEngine) :
    CryptoEngine.randomBytes n e =
      if e.tape.admits n then (.ok (e.tape.interval e.tape.position n), e.advance n)
      else (.error .randomness, e) := by
  simp only [CryptoEngine.randomBytes, draw, Tape.fill]
  split <;> rfl

theorem takes_call (q : Query) (e : AesGcmEngine) : q.Takes e (q.call e).1 (q.call e).2 := by
  cases q with
  | randomBytes n =>
    rw [Query.call, randomBytes_eq]
    split
    · exact ⟨rfl, rfl⟩
    · exact rfl
  | encrypt iv associated text => exact rfl
  | decrypt iv associated ciphertext =>
    simp only [Query.call, CryptoEngine.decrypt]
    split <;> exact rfl
  | shuffle n =>
    obtain ⟨k, ht, hswaps⟩ := drawShuffle_spends n e.tape
    refine ⟨k, ?_, hswaps⟩
    rw [advance, ← ht]
    rfl

theorem exists_advance_of_takes {q : Query} {answer : Except StoreError q.Reply}
    (h : q.Takes e answer e') : ∃ n, e' = e.advance n := by
  cases q with
  | randomBytes n =>
    cases answer with
    | ok x => exact ⟨n, h.2⟩
    | error err => exact ⟨0, h⟩
  | encrypt iv associated text => exact ⟨0, h⟩
  | decrypt iv associated ciphertext => exact ⟨0, h⟩
  | shuffle n =>
    obtain ⟨k, he, -⟩ := h
    exact ⟨4 * k, he⟩

theorem draws_of_linked (h : Linked e l e') : ∀ c ∈ l, c.Draws := by
  induction l generalizing e with
  | nil => exact List.forall_mem_nil _
  | cons c l ih =>
    obtain ⟨hbefore, hcall, hrest⟩ := h
    refine List.forall_mem_cons.2 ⟨?_, ih hrest⟩
    have hdraws := takes_call c.query c.before
    rw [hbefore, hcall, ← hbefore] at hdraws
    exact hdraws

theorem apart_of_linked (h : Linked e l e') :
    (∀ c ∈ l, e.tape.position ≤ c.before.tape.position) ∧
      l.Pairwise fun c d => c.after.tape.position ≤ d.before.tape.position := by
  induction l generalizing e with
  | nil => exact ⟨List.forall_mem_nil _, .nil⟩
  | cons c l ih =>
    have hdraws := draws_of_linked h c List.mem_cons_self
    obtain ⟨rfl, -, hrest⟩ := h
    obtain ⟨n, hn⟩ := exists_advance_of_takes hdraws
    have hle : c.before.tape.position ≤ c.after.tape.position := by
      rw [hn]
      exact Nat.le_add_right _ _
    obtain ⟨hfrom, hapart⟩ := ih hrest
    refine ⟨List.forall_mem_cons.2 ⟨Nat.le_refl _, fun d hd => ?_⟩, .cons hfrom hapart⟩
    exact Nat.le_trans hle (hfrom d hd)

theorem eq_advance_of_linked_drawn {iv : Iv} {associated text : Bytes} {e₀ e₁ e₂ e₃ : AesGcmEngine}
    {answer : Except StoreError Bytes}
    (h : Linked e (⟨.randomBytes ivSize, e₀, .ok iv, e₁⟩ ::
      ⟨.encrypt iv associated text, e₂, answer, e₃⟩ :: l) e') :
    e₀ = e ∧ iv = e.tape.interval e.tape.position ivSize ∧ e₂ = e.advance ivSize ∧
      Linked (e.advance ivSize) l e' := by
  have hdraws := draws_of_linked h
  obtain ⟨rfl, -, rfl, -, hrest⟩ := h
  obtain ⟨hdraw, hencrypt⟩ := List.forall_mem_cons.1 hdraws
  obtain ⟨hiv, rfl⟩ : iv = e₀.tape.interval e₀.tape.position ivSize ∧ e₂ = e₀.advance ivSize := hdraw
  obtain rfl : e₃ = e₀.advance ivSize := hencrypt _ List.mem_cons_self
  exact ⟨rfl, hiv, rfl, hrest⟩

/-- The initialisation vector of an encryption is what was drawn last before it. -/
theorem nonce_of_linked (hf : FreshNonces l) (h : Linked e l e') :
    ∀ c ∈ l, ∀ iv, c.query.nonce? = some iv → ∃ p, e.tape.position ≤ p ∧
      c.before.tape.position = p + ivSize ∧ iv = e.tape.interval p ivSize := by
  induction hf generalizing e with
  | nil => exact List.forall_mem_nil _
  | @other c l hc _ ih =>
    have hdraws := draws_of_linked h c List.mem_cons_self
    obtain ⟨rfl, -, hrest⟩ := h
    obtain ⟨n, hn⟩ := exists_advance_of_takes hdraws
    refine List.forall_mem_cons.2 ⟨fun iv hiv => absurd (hc.symm.trans hiv) (by simp), ?_⟩
    intro d hd iv hiv
    obtain ⟨p, hfrom, hp, hinterval⟩ := ih hrest d hd iv hiv
    rw [hn] at hfrom hinterval
    exact ⟨p, Nat.le_trans (Nat.le_add_right _ n) hfrom, hp, hinterval⟩
  | @drawn iv associated text e₀ e₁ e₂ e₃ answer l _ ih =>
    obtain ⟨rfl, hiv, rfl, hrest⟩ := eq_advance_of_linked_drawn h
    refine List.forall_mem_cons.2 ⟨fun iv' h' => absurd h' (by simp [Query.nonce?]),
      List.forall_mem_cons.2 ⟨fun iv' h' => ?_, fun d hd iv' h' => ?_⟩⟩
    · obtain rfl : iv = iv' := Option.some.inj h'
      exact ⟨e₀.tape.position, Nat.le_refl _, rfl, hiv⟩
    · obtain ⟨p, hfrom, hp, hinterval⟩ := ih hrest d hd iv' h'
      exact ⟨p, Nat.le_trans (Nat.le_add_right _ ivSize) hfrom, hp, hinterval⟩

theorem nonces_apart_of_linked (hf : FreshNonces l) (h : Linked e l e') :
    l.Pairwise fun c d => c.query.nonce?.isSome → d.query.nonce?.isSome →
      c.before.tape.position + ivSize ≤ d.before.tape.position := by
  induction hf generalizing e with
  | nil => exact .nil
  | @other c l hc _ ih =>
    obtain ⟨-, -, hrest⟩ := h
    exact .cons (fun d _ h' => absurd h' (by simp [hc])) (ih hrest)
  | @drawn iv associated text e₀ e₁ e₂ e₃ answer l hl ih =>
    obtain ⟨rfl, -, rfl, hrest⟩ := eq_advance_of_linked_drawn h
    -- what comes later was drawn after the engine that this encryption was made on
    refine .cons (fun d _ h' => absurd h' (by simp [Query.nonce?])) (.cons ?_ (ih hrest))
    intro d hd _ hsome
    obtain ⟨iv', hiv'⟩ := Option.isSome_iff_exists.1 hsome
    obtain ⟨p, hfrom, hp, -⟩ := nonce_of_linked hl hrest d hd iv' hiv'
    rw [hp]
    exact Nat.add_le_add_right hfrom ivSize

end AesGcmEngine

/-! ## Encrypted blocks and buckets -/

namespace Block

variable {b c : Block size} {e e' : AesGcmEngine} {log : List Event}

theorem nonce_of_run_encrypt (hn : b.isNormal) (h : encrypt.run (b, e) = ⟨.ok (), (c, e'), log⟩) :
    c.header.iv = e.tape.interval e.tape.position ivSize ∧ e' = e.advance ivSize ∧
      nonces ((encryption b).exchanges e) = [c.header.iv] := by
  have hdraw := AesGcmEngine.randomBytes_eq ivSize e
  rw [run_encrypt_of_isNormal hn] at h
  by_cases ht : e.tape.admits ivSize
  · rw [if_pos ht] at hdraw
    rw [encryption, if_pos hn]
    simp only [Dialogue.exchanges, Query.call, hdraw]
    rw [hdraw] at h
    generalize e.tape.interval e.tape.position ivSize = iv at h ⊢
    simp only [sealCall, CryptoEngine.encrypt] at h
    split at h
    · rw [Outcome.mk.injEq, Prod.mk.injEq] at h
      obtain ⟨-, ⟨rfl, rfl⟩, -⟩ := h
      exact ⟨rfl, rfl, rfl⟩
    · rw [Outcome.mk.injEq] at h
      exact absurd h.1 (by simp)
  · rw [if_neg ht] at hdraw
    rw [hdraw, Outcome.mk.injEq] at h
    exact absurd h.1 (by simp)

end Block

namespace Bucket

/-- The initialisation vectors of the normal blocks, in the order of the bucket. -/
def ivs (bucket : Bucket size) : List Iv := (bucket.filter Block.isNormal).map (·.header.iv)

variable {bucket sealed : Bucket size} {e e' : AesGcmEngine} {log : List Event}

theorem nonces_of_run_encrypt
    (h : (Op.forEach Block.encrypt).run (bucket, e) = ⟨.ok (), (sealed, e'), log⟩) :
    ivs sealed = e.tape.intervals ivSize (bucket.countP Block.isNormal) ∧
      e' = e.advance (ivSize * bucket.countP Block.isNormal) ∧
      nonces ((Script.forEach Block.encryption bucket).exchanges e) = ivs sealed := by
  induction bucket generalizing e sealed log with
  | nil =>
    rw [Op.run_forEach_nil, Outcome.mk.injEq, Prod.mk.injEq] at h
    obtain ⟨-, ⟨rfl, rfl⟩, -⟩ := h
    exact ⟨rfl, rfl, rfl⟩
  | cons b bucket ih =>
    obtain ⟨c, rest, e₁, l₁, l₂, rfl, hb, hrest⟩ := Op.of_run_forEach_cons h
    have hkind : c.isNormal ↔ b.isNormal := (Block.sealedUnder_of_run_encrypt hb).1.isNormal_iff
    have hexchanges := Script.exchanges_forEach_cons_ok (Block.converses_encrypt.hold_eq hb) bucket
    obtain ⟨hivs, he, hnonces⟩ := ih hrest
    rw [hexchanges, nonces_append, hnonces]
    -- a normal block takes the first of the intervals, any other takes none
    by_cases hn : b.isNormal
    · obtain ⟨hiv, rfl, hnonce⟩ := Block.nonce_of_run_encrypt hn hb
      have hcons : ivs (c :: rest) = c.header.iv :: ivs rest := by
        rw [ivs, List.filter_cons_of_pos (hkind.2 hn), List.map_cons, ivs]
      rw [hcons, List.countP_cons_of_pos hn, Tape.intervals_succ, hnonce, hiv]
      refine ⟨congrArg _ hivs, ?_, rfl⟩
      rw [he, Nat.mul_succ, Nat.add_comm]
      simp only [AesGcmEngine.advance, Tape.advance_advance]
    · rw [Block.run_encrypt_of_not_isNormal hn, Outcome.mk.injEq, Prod.mk.injEq] at hb
      obtain ⟨-, ⟨rfl, rfl⟩, -⟩ := hb
      have hcons : ivs (b :: rest) = ivs rest := by
        rw [ivs, List.filter_cons_of_neg hn, ivs]
      have hb : (Block.encryption b).exchanges e = [] := by
        rw [Block.encryption, if_neg hn, Dialogue.exchanges_done]
      rw [hcons, List.countP_cons_of_neg hn, hb]
      exact ⟨hivs, he, rfl⟩

theorem nonces_forEach_decryption [CryptoEngine E] (bucket : Bucket size) (e : E) :
    nonces ((Script.forEach Block.decryption bucket).exchanges e) = [] := by
  induction bucket generalizing e with
  | nil => rfl
  | cons b bucket ih =>
    rw [Script.forEach, Dialogue.exchanges_bind, nonces_append, Block.nonces_decryption,
      List.nil_append]
    rcases (Block.decryption b).hold e with ⟨⟨err | u, b'⟩, e₁⟩
    · rfl
    · rw [Dialogue.exchanges_bind, nonces_append, ih]
      rfl

/-- `sealed` is the bucket with its normal blocks encrypted under the initialisation
    vectors that the tape of the engine gives next, which takes no more of it. -/
structure FreshlySealed (e : AesGcmEngine) (bucket sealed : Bucket size) (e' : AesGcmEngine) :
    Prop where
  sealedUnder : List.Forall₂ (Block.SealedUnder e.cipher) bucket sealed
  ivs_eq : ivs sealed = e.tape.intervals ivSize (bucket.countP Block.isNormal)
  after_eq : e' = e.advance (ivSize * bucket.countP Block.isNormal)

end Bucket

namespace Storage

variable [Backend S A] {a : A} {s s' : S} {change : Bucket size → β × Bucket size}

theorem nonces_accessing {e e₁ e' : AesGcmEngine} {plain sealed : Bucket size} {l l' : List Event}
    (hp : (readPlain size a).run (s, e) = ⟨.ok plain, (s, e₁), l⟩)
    (he : (Op.forEach Block.encrypt).run ((change plain).2, e₁) = ⟨.ok (), (sealed, e'), l'⟩) :
    nonces ((accessing a change s).exchanges e) = Bucket.ivs sealed := by
  have hread : nonces ((reading size a s).exchanges e) = [] := by
    simp only [reading, Script.bind, Script.silent, Dialogue.bind]
    rcases ((read size a).run s).result with err | stored
    · rfl
    · simp only [Script.exchanges_within]
      exact Bucket.nonces_forEach_decryption stored e
  have hwrite : (writing a (change plain).2 s).exchanges e₁ =
      (Script.forEach Block.encryption (change plain).2).exchanges e₁ := by
    rw [writing, Script.exchanges_bind_silent _ fun _ _ _ => rfl, Script.exchanges_within]
  rw [accessing, Script.exchanges_bind_ok _ ((converses_readPlain size a).hold_eq hp),
    Script.exchanges_bind_silent _ fun _ _ _ => rfl, nonces_append, hread, hwrite]
  exact (Bucket.nonces_of_run_encrypt he).2.2

theorem freshlySealed_of_run_access {e e' : AesGcmEngine} {r : β} {log : List Event}
    (h : (access a change).run (s, e) = ⟨.ok r, (s', e'), log⟩) :
    ∃ plain sealed p l, (readPlain size a).run (s, e) = ⟨.ok plain, (s, e), l⟩ ∧
      r = (change plain).1 ∧ Bucket.FreshlySealed e (change plain).2 sealed e' ∧
      Bucket.pack sealed = .ok p ∧ Backend.slot s' a = some p ∧
      nonces ((accessing a change s).exchanges e) = Bucket.ivs sealed := by
  rcases access_cases h with ⟨err, hr, -⟩ | ⟨plain, e₁, r₂, l₁, l₂, hp, hw, hr⟩
  · exact absurd hr (by simp)
  · have hkeep : ((readPlain size a).run (s, e)).state.2 = e :=
      keeps_readPlain (I := (· = e)) (Block.keeps_decrypt e) a (s, e) rfl
    rw [hp] at hkeep
    obtain rfl : e₁ = e := hkeep
    rcases writePlain_cases hw with ⟨err, rfl, -⟩ | ⟨sealed, p, l', rfl, he, -, hpack, hin, rfl⟩
    · exact absurd hr (by simp [Except.map])
    · obtain ⟨hivs, hafter, -⟩ := Bucket.nonces_of_run_encrypt he
      exact ⟨plain, sealed, p, l₁, hp, Except.ok.inj hr,
        ⟨Bucket.sealedUnder_of_run_encrypt he, hivs, hafter⟩, hpack, Backend.slot_put_self hin,
        nonces_accessing hp he⟩

end Storage

/-! ## Runs -/

/-- The calls between two states of an engine, as they lie on its tape: each takes the
    bytes from where the one before it stopped, so that no byte is taken twice.  An
    encryption has the initialisation vector that was drawn last before it, and those
    of two encryptions do not overlap. -/
structure NoReuse (e : AesGcmEngine) (l : List (Exchange AesGcmEngine)) (e' : AesGcmEngine) :
    Prop where
  linked : Linked e l e'
  draws : ∀ c ∈ l, c.Draws
  apart : l.Pairwise fun c d => c.after.tape.position ≤ d.before.tape.position
  fresh : FreshNonces l
  nonce_eq : ∀ c ∈ l, ∀ iv, c.query.nonce? = some iv → ∃ p, e.tape.position ≤ p ∧
    c.before.tape.position = p + ivSize ∧ iv = e.tape.interval p ivSize
  nonces_apart : l.Pairwise fun c d => c.query.nonce?.isSome → d.query.nonce?.isSome →
    c.before.tape.position + ivSize ≤ d.before.tape.position

namespace Task.Run

theorem freshNonces [CryptoEngine E] {e e' : E} {l : List (Exchange E)} (h : Run e l e') :
    FreshNonces l := by
  induction h with
  | start => exact .nil
  | @next l e₁ _ size σ α k s ih =>
    exact ih.append ((FreshNonces.compositional size).script k s e₁)

theorem noReuse {e e' : AesGcmEngine} {l : List (Exchange AesGcmEngine)} (h : Run e l e') :
    NoReuse e l e' where
  linked := h.linked
  draws := AesGcmEngine.draws_of_linked h.linked
  apart := (AesGcmEngine.apart_of_linked h.linked).2
  fresh := h.freshNonces
  nonce_eq := AesGcmEngine.nonce_of_linked h.freshNonces h.linked
  nonces_apart := AesGcmEngine.nonces_apart_of_linked h.freshNonces h.linked

end Task.Run

/-- **No initialisation vector comes from randomness that was used before.**  Whatever
    operations are run on an engine, and whichever of them fail, no byte of its tape
    is drawn twice.  A normal block that was encrypted has the initialisation vector
    drawn for it; the normal blocks that an access writes have those that follow on
    the tape, in the order of the bucket, and nothing else is drawn.  These are the
    initialisation vectors that the calls of the run encrypt under. -/
theorem nonces_never_reused (e : AesGcmEngine) :
    (∀ l e', Task.Run e l e' → NoReuse e l e') ∧
    (∀ (size : Nat) (b c : Block size) e' log, b.isNormal →
      Block.encrypt.run (b, e) = ⟨.ok (), (c, e'), log⟩ →
      c.header.iv = e.tape.interval e.tape.position ivSize ∧ e' = e.advance ivSize ∧
        nonces ((Block.encryption b).exchanges e) = [c.header.iv]) ∧
    (∀ (size : Nat) (S A β : Type) [Backend S A] (a : A) (change : Bucket size → β × Bucket size)
      (s s' : S) r e' log,
      (Storage.access a change).run (s, e) = ⟨.ok r, (s', e'), log⟩ →
      ∃ plain sealed p l, (Storage.readPlain size a).run (s, e) = ⟨.ok plain, (s, e), l⟩ ∧
        r = (change plain).1 ∧ Bucket.FreshlySealed e (change plain).2 sealed e' ∧
        Bucket.pack sealed = .ok p ∧ Backend.slot s' a = some p ∧
        nonces ((Storage.accessing a change s).exchanges e) = Bucket.ivs sealed) := by
  refine ⟨fun l e' h => h.noReuse, fun size b c e' log hn h => ?_,
    fun size S A β _ a change s s' r e' log h => ?_⟩
  · exact Block.nonce_of_run_encrypt hn h
  · exact Storage.freshlySealed_of_run_access h

/-- The same block encrypted twice has two initialisation vectors, one after the
    other on the tape, and in place of a dummy it is written with the first. -/
theorem nonces_never_reused_twice :
    let e : AesGcmEngine := ⟨⟨Vector.replicate keySize 0⟩, ⟨UInt8.ofNat, none, 0⟩⟩
    let b : Block 1 := .new 7 .normal #v[0xAB]
    let change : Bucket 1 → Unit × Bucket 1 := fun _ => ((), [b])
    (∃ c c' e₁ e₂ l, Block.encrypt.run (b, e) = ⟨.ok (), (c, e₁), []⟩ ∧
      Block.encrypt.run (b, e₁) = ⟨.ok (), (c', e₂), []⟩ ∧ Task.Run e l e₂ ∧ NoReuse e l e₂ ∧
      nonces l = [c.header.iv, c'.header.iv] ∧ c.header.iv ≠ c'.header.iv) ∧
    ∃ (t t' : TreeStorage) (e' : AesGcmEngine) (log : List Event) (sealed : Bucket 1)
      (p : PackedBucket), b.isNormal ∧
      (Storage.access (⟨0, 0⟩ : TreeTag) change).run (t, e) = ⟨.ok (), (t', e'), log⟩ ∧
      Bucket.pack sealed = .ok p ∧ Backend.slot t' ⟨0, 0⟩ = some p ∧
      Bucket.ivs sealed = [e.tape.interval 0 ivSize] := by
  intro e b change
  have hn : b.isNormal := rfl
  obtain ⟨c, e₁, hrun, -⟩ := Block.run_encrypt_of_admits (b := b) (e := e) rfl rfl
  obtain ⟨-, hblock, -⟩ := nonces_never_reused e
  obtain ⟨hiv, rfl, hnonce⟩ := hblock 1 b c e₁ [] hn hrun
  constructor
  · obtain ⟨c', e₂, hrun', -⟩ := Block.run_encrypt_of_admits (b := b) (e := e.advance ivSize) rfl rfl
    obtain ⟨hiv', -, hnonce'⟩ := (nonces_never_reused (e.advance ivSize)).2.1 1 b c' e₂ [] hn hrun'
    let k : Task 1 (Block 1) Unit := .encrypt
    have hfirst : Task.Run e ([] ++ (k.script b).exchanges e) (Block.encrypt.run (b, e)).state.2 :=
      .next .start k b
    rw [hrun] at hfirst
    have hboth : Task.Run e _ (Block.encrypt.run (b, e.advance ivSize)).state.2 :=
      .next hfirst k b
    rw [hrun'] at hboth
    refine ⟨c, c', _, e₂, _, hrun, hrun', hboth, (nonces_never_reused e).1 _ _ hboth, ?_, ?_⟩
    · rw [nonces_append, List.nil_append]
      exact congrArg₂ (· ++ ·) hnonce hnonce'
    · rw [hiv, hiv']
      decide
  · obtain ⟨t, hsize, hin, hplain⟩ := Storage.exists_readPlain_one_dummy
    have hseal : (Op.forEach Block.encrypt).run ([b], e) =
        ⟨.ok (), ([c], e.advance ivSize), []⟩ := Op.run_forEach_singleton hrun
    have haccess : (Storage.access (⟨0, 0⟩ : TreeTag) change).run (t, e) = _ :=
      Storage.run_access_of_readPlain (hplain e)
    rw [Storage.run_writePlain_of_encrypt_ok hseal, Storage.run_write (Bucket.pack_eq_ok [c]),
      if_pos (by rw [hsize]; rfl), if_pos hin] at haccess
    obtain ⟨plain, sealed, p, l, -, -, hsealed, hpack, hslot, -⟩ :=
      (nonces_never_reused e).2.2 1 _ _ _ _ change t _ _ _ _ haccess
    exact ⟨t, _, _, _, sealed, p, hn, haccess, hpack, hslot, hsealed.ivs_eq⟩

end ObliviousStore
