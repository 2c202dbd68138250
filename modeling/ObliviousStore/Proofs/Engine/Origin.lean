/-
  Where failures come from.

  A dialogue that fails was told so by its engine (`Dialogue.failures`), or the failure
  is one of its own (`Dialogue.Owns`).  The only one that a block has of its own is that
  a result has the wrong length.
-/
import ObliviousStore.Proofs.Engine.Task

namespace ObliviousStore

variable {E ρ κ σ τ α β : Type} {size : Nat}

def Exchange.failure? (c : Exchange E) : Option StoreError :=
  match c.answer with
  | .error err => some err
  | .ok _ => none

namespace Dialogue

/-- What the engine failed with in a dialogue. -/
def failures [CryptoEngine E] (d : Dialogue ρ) (e : E) : List StoreError :=
  (d.exchanges e).filterMap Exchange.failure?

theorem failures_bind [CryptoEngine E] (d : Dialogue ρ) (f : ρ → Dialogue κ) (e : E) :
    (d.bind f).failures e = d.failures e ++ (f (d.hold e).1).failures (d.hold e).2 := by
  rw [failures, exchanges_bind, List.filterMap_append]
  rfl

theorem mem_failures_ask_of_error [CryptoEngine E] {q : Query}
    {next : Except StoreError q.Reply → Dialogue ρ} {e : E} {err : StoreError}
    (h : (q.call e).1 = .error err) : err ∈ (ask q next).failures e := by
  have hfailure : Exchange.failure? ⟨q, e, (q.call e).1, (q.call e).2⟩ = some err := by
    rw [Exchange.failure?, h]
  rw [failures, exchanges, List.filterMap_cons_some hfailure]
  exact List.mem_cons_self

theorem mem_failures_ask [CryptoEngine E] {q : Query}
    {next : Except StoreError q.Reply → Dialogue ρ} {e : E} {err : StoreError}
    (h : err ∈ (next (q.call e).1).failures (q.call e).2) : err ∈ (ask q next).failures e := by
  obtain ⟨c, hc, hfailure⟩ := List.mem_filterMap.1 h
  exact List.mem_filterMap.2 ⟨c, List.mem_cons_of_mem _ hc, hfailure⟩

/-- A failure of the dialogue is one of its own, or the engine's. -/
def Owns (own : StoreError → Prop) (d : Dialogue (Except StoreError α × σ)) : Prop :=
  ∀ (E : Type) [CryptoEngine E] (e : E) (err : StoreError), (d.hold e).1.1 = .error err →
    own err ∨ err ∈ d.failures e

namespace Owns

variable {own : StoreError → Prop}

theorem done {r : Except StoreError α × σ} (h : ∀ err, r.1 = .error err → own err) :
    Owns own (.done r) := fun _ _ _ err herr => .inl (h err herr)

theorem mono {own' : StoreError → Prop} {d : Dialogue (Except StoreError α × σ)} (hd : Owns own d)
    (h : ∀ err, own err → own' err) : Owns own' d := by
  intro E _ e err herr
  exact (hd E e err herr).imp_left (h err)

theorem ok (a : α) (s : σ) : Owns own (.done (.ok a, s)) := .done fun _ h => absurd h (by simp)

/-- A call whose failure ends the dialogue. -/
theorem ask {q : Query} {next : Except StoreError q.Reply → Dialogue (Except StoreError α × σ)}
    (herror : ∀ err, ∃ s, next (.error err) = .done (.error err, s))
    (hnext : ∀ x, Owns own (next (.ok x))) : Owns own (.ask q next) := by
  intro E _ e err herr
  change ((next (q.call e).1).hold (q.call e).2).1.1 = .error err at herr
  cases hq : (q.call e).1 with
  | error err' =>
    obtain ⟨s, hs⟩ := herror err'
    rw [hq, hs] at herr
    obtain rfl : err' = err := Except.error.inj herr
    exact .inr (mem_failures_ask_of_error hq)
  | ok x =>
    rw [hq] at herr
    rcases hnext x E _ err herr with hown | hmem
    · exact .inl hown
    · rw [← hq] at hmem
      exact .inr (mem_failures_ask hmem)

theorem bind {d : Dialogue (Except StoreError α × σ)}
    {f : Except StoreError α × σ → Dialogue (Except StoreError β × τ)} (hd : Owns own d)
    (herror : ∀ err s, ∃ t, f (.error err, s) = .done (.error err, t))
    (hok : ∀ a s, Owns own (f (.ok a, s))) : Owns own (d.bind f) := by
  intro E _ e err herr
  rw [hold_bind] at herr
  rw [failures_bind, List.mem_append]
  rcases hhold : d.hold e with ⟨⟨err' | a, s⟩, e'⟩
  · obtain ⟨t, ht⟩ := herror err' s
    rw [hhold, ht] at herr
    obtain rfl : err' = err := Except.error.inj herr
    rcases hd E e err' (by rw [hhold]) with hown | hmem
    · exact .inl hown
    · exact .inr (.inl hmem)
  · rw [hhold] at herr
    rcases hok a s E e' err herr with hown | hmem
    · exact .inl hown
    · exact .inr (.inr hmem)

theorem script_bind {d : Script σ α} {f : α → Script σ β} {s : σ} (hd : Owns own (d s))
    (hf : ∀ a s', Owns own (f a s')) : Owns own (d.bind f s) :=
  .bind hd (fun _ s' => ⟨s', rfl⟩) hf

theorem script_forEach {d : Script α Unit} (hd : ∀ a, Owns own (d a)) (as : List α) :
    Owns own (Script.forEach d as) := by
  induction as with
  | nil => exact .ok () []
  | cons a as ih =>
    refine .bind (hd a) (fun err a' => ⟨a' :: as, rfl⟩) fun u a' => ?_
    exact .bind ih (fun err as' => ⟨a' :: as', rfl⟩) fun u as' => .ok u (a' :: as')

theorem script_within {d : Script α Unit} {a : α} (hd : Owns own (d a)) (s : σ) :
    Owns own (Script.within a d s) :=
  .bind hd (fun _ _ => ⟨s, rfl⟩) fun _ a' => .ok a' s

end Owns

end Dialogue

/-! ## Blocks -/

theorem Block.owns_encryption (b : Block size) : (encryption b).Owns (· = .encryption) := by
  unfold encryption
  split
  · refine .ask (fun err => ⟨b, rfl⟩) fun iv => .ask (fun err => ⟨b.withIv iv, rfl⟩) fun result => ?_
    refine .done fun err herr => ?_
    split at herr
    · exact absurd herr (by simp)
    · exact (Except.error.inj herr).symm
  · exact .ok () b

theorem Block.owns_decryption (b : Block size) : (decryption b).Owns (· = .authentication) := by
  unfold decryption
  split
  · refine .ask (fun err => ⟨b, rfl⟩) fun text => .done fun err herr => ?_
    split at herr
    · exact absurd herr (by simp)
    · exact (Except.error.inj herr).symm
  · exact .ok () b

end ObliviousStore
