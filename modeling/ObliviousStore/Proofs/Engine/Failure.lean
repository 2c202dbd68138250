/-
  No failure of an engine is passed over (`engine_failure_ends_task`).

  An answer is a fault when the engine failed, or when its result has not the length
  that the payload asks for (`Query.fault?`).  Every dialogue of the library ends
  with its first fault (`Dialogue.Heeds`); the dialogues that other dialogues are
  put together from pass this on.
-/
import ObliviousStore.Proofs.Engine.Task

namespace ObliviousStore

variable {E σ τ α β : Type} {size : Nat}

/-- The failure that an answer means where payloads have `size` bytes. -/
def Query.fault? (size : Nat) : (q : Query) → Except StoreError q.Reply → Option StoreError
  | _, .error err => some err
  | .encrypt .., .ok x => if x.length = size + macTagSize then none else some .encryption
  | .decrypt .., .ok x => if x.length = size then none else some .authentication
  | .randomBytes _, .ok _ | .shuffle _, .ok _ => none

def Exchange.fault? (size : Nat) (c : Exchange E) : Option StoreError := c.query.fault? size c.answer

/-- After a fault a dialogue is over, and the fault is its result. -/
inductive Dialogue.Heeds (size : Nat) : Dialogue (Except StoreError α × σ) → Prop where
  | done (r : Except StoreError α × σ) : Heeds size (.done r)
  | ask {q : Query} {next : Except StoreError q.Reply → Dialogue (Except StoreError α × σ)}
      (hfault : ∀ answer err, q.fault? size answer = some err →
        ∃ s, next answer = .done (.error err, s))
      (hnext : ∀ answer, q.fault? size answer = none → Heeds size (next answer)) :
      Heeds size (.ask q next)

namespace Dialogue.Heeds

/-- A call after which a dialogue goes on with results of the right length alone. -/
theorem call {q : Query} {next : Except StoreError q.Reply → Dialogue (Except StoreError α × σ)}
    (herror : ∀ err, ∃ s, next (.error err) = .done (.error err, s))
    (hlength : ∀ x err, q.fault? size (.ok x) = some err → ∃ s, next (.ok x) = .done (.error err, s))
    (hnext : ∀ x, q.fault? size (.ok x) = none → (next (.ok x)).Heeds size) :
    (Dialogue.ask q next).Heeds size := by
  refine .ask (fun answer err h => ?_) fun answer h => ?_
  · cases answer with
    | error err' =>
      obtain rfl : err' = err := Option.some.inj h
      exact herror err'
    | ok x => exact hlength x err h
  · cases answer with
    | error err => exact absurd h (by simp [Query.fault?])
    | ok x => exact hnext x h

theorem bind {d : Dialogue (Except StoreError α × σ)}
    {f : Except StoreError α × σ → Dialogue (Except StoreError β × τ)} (hd : d.Heeds size)
    (herror : ∀ err s, ∃ t, f (.error err, s) = .done (.error err, t))
    (hok : ∀ a s, (f (.ok a, s)).Heeds size) : (d.bind f).Heeds size := by
  induction hd with
  | done r =>
    rcases r with ⟨err | a, s⟩
    · obtain ⟨t, ht⟩ := herror err s
      rw [Dialogue.bind, ht]
      exact .done _
    · exact hok a s
  | ask hfault _ ih =>
    refine .ask (fun answer err h => ?_) ih
    obtain ⟨s, hs⟩ := hfault answer err h
    rw [hs]
    exact herror err s

/-- A dialogue stops at the first fault it meets. -/
theorem stops [CryptoEngine E] {d : Dialogue (Except StoreError α × σ)} (hd : d.Heeds size)
    {e : E} {before after : List (Exchange E)} {c : Exchange E} {err : StoreError}
    (hl : d.exchanges e = before ++ c :: after) (hc : c.fault? size = some err) :
    after = [] ∧ (d.hold e).1.1 = .error err := by
  induction hd generalizing e before with
  | done r => exact absurd hl (by simp)
  | @ask q next hfault hnext ih =>
    rw [exchanges] at hl
    cases before with
    | nil =>
      obtain ⟨rfl, rfl⟩ := List.cons_eq_cons.1 hl
      obtain ⟨s, hs⟩ := hfault _ err hc
      rw [hold, hs]
      exact ⟨rfl, rfl⟩
    | cons b before =>
      obtain ⟨-, hrest⟩ := List.cons_eq_cons.1 hl
      cases hq : q.fault? size (q.call e).1 with
      | some err' =>
        -- nothing is said after a fault, so `c` cannot have been
        obtain ⟨s, hs⟩ := hfault _ err' hq
        rw [hs] at hrest
        exact absurd hrest (by simp)
      | none => exact ih _ hq hrest

end Dialogue.Heeds

/-! ## The dialogues of the library -/

theorem Dialogue.Heeds.query {q : Query} (hq : ∀ x, q.fault? size (.ok x) = none) (s : σ) :
    (Script.query q s).Heeds size := by
  refine .call (fun err => ⟨s, rfl⟩) (fun x err h => ?_) fun x _ => .done (.ok x, s)
  exact absurd (h.symm.trans (hq x)) (by simp)

theorem Block.heeds_encryption (b : Block size) : (encryption b).Heeds size := by
  unfold encryption
  split
  · refine .call (fun err => ⟨b, rfl⟩) (fun iv err h => absurd h (by simp [Query.fault?]))
      fun iv _ => ?_
    refine .call (fun err => ⟨b.withIv iv, rfl⟩) (fun result err h => ?_) fun result _ => .done _
    simp only [Query.fault?] at h
    split at h
    · exact absurd h (by simp)
    · rename_i hlength
      obtain rfl := Option.some.inj h
      exact ⟨b.withIv iv, by simp only [dif_neg hlength]⟩
  · exact .done _

theorem Block.heeds_decryption (b : Block size) : (decryption b).Heeds size := by
  unfold decryption
  split
  · refine .call (fun err => ⟨b, rfl⟩) (fun text err h => ?_) fun text _ => .done _
    simp only [Query.fault?] at h
    split at h
    · exact absurd h (by simp)
    · rename_i hlength
      obtain rfl := Option.some.inj h
      exact ⟨b, by simp only [dif_neg hlength]⟩
  · exact .done _

theorem Dialogue.compositional_heeds (size : Nat) :
    Compositional size fun _ _ d => d.Heeds size where
  done := .done
  bind := .bind
  randomBytes _ := .query fun _ => rfl
  shuffle _ := .query fun _ => rfl
  encryption := Block.heeds_encryption
  decryption := Block.heeds_decryption

/-- **No failure of an engine is passed over.**  Whatever engine it is run with, an
    operation of the library makes the calls of its script.  If one of them fails,
    or returns a ciphertext or a text of the wrong length, it is the last one, and
    its failure is the result.  So an operation that succeeds met none. -/
theorem engine_failure_ends_task (k : Task size σ α) :
    ∀ (E : Type) [CryptoEngine E], Op.Converses (k.op : Op (σ × E) α) k.script ∧
      ∀ (s : σ) (e : E),
        (∀ before (c : Exchange E) after err, (k.script s).exchanges e = before ++ c :: after →
          c.fault? size = some err → after = [] ∧ (k.op.run (s, e)).result = .error err) ∧
        ∀ a, (k.op.run (s, e)).result = .ok a →
          ∀ c ∈ (k.script s).exchanges e, c.fault? size = none := by
  intro E _
  refine ⟨k.converses, fun s e => ?_⟩
  have hstops : ∀ before (c : Exchange E) after err, (k.script s).exchanges e = before ++ c :: after →
      c.fault? size = some err → after = [] ∧ (k.op.run (s, e)).result = .error err := by
    intro before c after err hl hc
    obtain ⟨hafter, hr⟩ := ((Dialogue.compositional_heeds size).script k s).stops hl hc
    exact ⟨hafter, (k.converses s e).1.trans hr⟩
  refine ⟨hstops, fun a ha c hmem => ?_⟩
  obtain ⟨before, after, hl⟩ := List.append_of_mem hmem
  cases hc : c.fault? size with
  | none => rfl
  | some err =>
    obtain ⟨-, hr⟩ := hstops before c after err hl hc
    exact absurd (ha.symm.trans hr) (by simp)

/-- An encryption for which there is no randomness ends with its first call, and one
    for which there is meets no fault. -/
theorem engine_failure_ends_task_encrypt :
    let key : SecretKey := ⟨Vector.replicate keySize 0⟩
    let dry : AesGcmEngine := ⟨key, ⟨fun _ => 0, some 0, 0⟩⟩
    let e : AesGcmEngine := ⟨key, ⟨fun _ => 0, none, 0⟩⟩
    let b : Block 1 := .new 7 .normal #v[0xAB]
    let k : Task 1 (Block 1) Unit := .encrypt
    (∃ c, (k.script b).exchanges dry = [] ++ c :: [] ∧ c.fault? 1 = some .randomness ∧
      (k.op.run (b, dry)).result = .error .randomness) ∧
    (k.op.run (b, e)).result = .ok () ∧ ∀ c ∈ (k.script b).exchanges e, c.fault? 1 = none := by
  intro key dry e b k
  constructor
  · let c : Exchange AesGcmEngine := ⟨.randomBytes ivSize, dry, .error .randomness, dry⟩
    have hl : (k.script b).exchanges dry = [] ++ c :: [] := rfl
    exact ⟨c, hl, rfl, (((engine_failure_ends_task k AesGcmEngine).2 b dry).1 [] c [] _ hl rfl).2⟩
  · have hok : (k.op.run (b, e)).result = .ok () := by
      obtain ⟨c, e', hrun, -⟩ := Block.run_encrypt_of_admits (b := b) (e := e) rfl rfl
      change (Block.encrypt.run (b, e)).result = _
      rw [hrun]
    exact ⟨hok, ((engine_failure_ends_task k AesGcmEngine).2 b e).2 () hok⟩

end ObliviousStore
