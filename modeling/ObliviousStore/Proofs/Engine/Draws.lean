/-
  Draws one after another.

  An operation that needs several random strings draws them in turn and stops at the first
  draw that fails.  What is drawn until then is the engine's affair alone (`Draws`,
  `exists_draws`), and of every dialogue that draws it can be said which calls it makes and
  what it comes to (`Dialogue.Goes`).
-/
import ObliviousStore.Proofs.Engine.Dialogue

namespace ObliviousStore

variable {E ρ κ σ α β : Type} [CryptoEngine E]

/-! ## How a dialogue goes -/

/-- With the engine `e` a dialogue makes the calls `asked`, comes to `r` and leaves the
    engine `e'`. -/
structure Dialogue.Goes (d : Dialogue ρ) (e : E) (asked : List Query) (r : ρ) (e' : E) : Prop where
  hold_eq : d.hold e = (r, e')
  query_eq : (d.exchanges e).map Exchange.query = asked

namespace Dialogue.Goes

variable {e e₁ e' : E} {asked asked' : List Query}

theorem done (r : ρ) (e : E) : (Dialogue.done r).Goes e [] r e := ⟨rfl, rfl⟩

theorem bind {d : Dialogue ρ} {f : ρ → Dialogue κ} {r : ρ} {r' : κ} (hd : d.Goes e asked r e₁)
    (hf : (f r).Goes e₁ asked' r' e') : (d.bind f).Goes e (asked ++ asked') r' e' where
  hold_eq := by rw [hold_bind, hd.hold_eq, hf.hold_eq]
  query_eq := by rw [exchanges_bind, List.map_append, hd.hold_eq, hd.query_eq, hf.query_eq]

/-- One call and its answer. -/
theorem query (q : Query) {answer : Except StoreError q.Reply} (h : q.call e = (answer, e'))
    (s : σ) : (Script.query q s).Goes e [q] (answer, s) e' := by
  refine ⟨?_, rfl⟩
  show (((q.call e).1, s), (q.call e).2) = ((answer, s), e')
  rw [h]

/-- A buffer that there can be is made without a word. -/
theorem reserve {bytes : Nat} (h : bytes ≤ Bytes.maxLength) (s : σ) (e : E) :
    (Script.reserve bytes s).Goes e [] (.ok (), s) e := by
  simp only [Script.reserve, Script.silent, if_pos h]
  exact .done _ e

variable {s s₁ s' : σ}

theorem bind_ok {d : Script σ α} {f : α → Script σ β} {a : α} {r : Except StoreError β × σ}
    (hd : (d s).Goes e asked (.ok a, s₁) e₁) (hf : (f a s₁).Goes e₁ asked' r e') :
    (d.bind f s).Goes e (asked ++ asked') r e' := hd.bind hf

/-- Nothing more is said. -/
theorem bind_done {d : Script σ α} {f : α → Script σ β} {a : α} {r : Except StoreError β × σ}
    (hd : (d s).Goes e asked (.ok a, s₁) e₁) (hf : f a s₁ = .done r) :
    (d.bind f s).Goes e asked r e₁ := by
  have hrest : (f a s₁).Goes e₁ [] r e₁ := by
    rw [hf]
    exact .done r e₁
  have hboth := hd.bind_ok hrest
  rwa [List.append_nil] at hboth

theorem bind_error {d : Script σ α} (f : α → Script σ β) {err : StoreError}
    (hd : (d s).Goes e asked (.error err, s₁) e₁) :
    (d.bind f s).Goes e asked (.error err, s₁) e₁ where
  hold_eq := by
    rw [Script.bind, hold_bind, hd.hold_eq]
    rfl
  query_eq := by
    rw [Script.bind, exchanges_bind, hd.hold_eq, List.map_append, hd.query_eq]
    exact List.append_nil asked

/-- What comes of an operation whose dialogue goes so. -/
theorem run_eq {x : Op (σ × E) α} {d : Script σ α} {r : Except StoreError α}
    (h : (d s).Goes e asked (r, s') e') (hx : Op.Converses x d) :
    x.run (s, e) = ⟨r, (s', e'), (x.run (s, e)).log⟩ := by
  obtain ⟨hresult, hstate⟩ := hx s e
  rw [h.hold_eq] at hresult hstate
  exact congrArg₂ (fun r st => Outcome.mk r st (x.run (s, e)).log) hresult hstate

/-- The same for an operation on an engine alone. -/
theorem run_onSnd_eq {x : Op E α} {d : Script σ α} {r : Except StoreError α}
    (h : (d s).Goes e asked (r, s') e') (hx : Op.Converses (Op.onSnd x) d) :
    x.run e = ⟨r, e', (x.run e).log⟩ := by
  have hrun := h.run_eq hx
  rw [Op.run_onSnd, Outcome.mk.injEq, Prod.mk.injEq] at hrun
  obtain ⟨hresult, ⟨-, hstate⟩, -⟩ := hrun
  exact congrArg₂ (fun r st => Outcome.mk r st (x.run e).log) hresult hstate

end Dialogue.Goes

/-! ## Draws -/

/-- `k` strings of `n` bytes are drawn one after another, or those before the first draw that
    fails: the strings, how it ends, and the engine after it. -/
inductive Draws (n : Nat) :
    Nat → E → List (Vector UInt8 n) → Except StoreError Unit → E → Prop where
  | done (e : E) : Draws n 0 e [] (.ok ()) e
  | failed {k : Nat} {e e' : E} {err : StoreError}
      (h : CryptoEngine.randomBytes n e = (.error err, e')) :
      Draws n (k + 1) e [] (.error err) e'
  | drawn {k : Nat} {e e₁ e' : E} {x : Vector UInt8 n} {xs : List (Vector UInt8 n)}
      {r : Except StoreError Unit} (h : CryptoEngine.randomBytes n e = (.ok x, e₁))
      (hrest : Draws n k e₁ xs r e') : Draws n (k + 1) e (x :: xs) r e'

/-- The calls that draws come to: one for each string, and one for the failure. -/
def drawCalls (n : Nat) (drawn : List (Vector UInt8 n)) : Except StoreError Unit → List Query
  | .ok () => List.replicate drawn.length (.randomBytes n)
  | .error _ => List.replicate (drawn.length + 1) (.randomBytes n)

theorem drawCalls_cons {n : Nat} (x : Vector UInt8 n) (xs : List (Vector UInt8 n))
    (r : Except StoreError Unit) :
    drawCalls n (x :: xs) r = .randomBytes n :: drawCalls n xs r := by
  cases r <;> rfl

theorem exists_draws (n k : Nat) (e : E) : ∃ xs r e', Draws n k e xs r e' := by
  induction k generalizing e with
  | zero => exact ⟨[], .ok (), e, .done e⟩
  | succ k ih =>
    rcases h : CryptoEngine.randomBytes n e with ⟨err | x, e₁⟩
    · exact ⟨[], .error err, e₁, .failed h⟩
    · obtain ⟨xs, r, e', hrest⟩ := ih e₁
      exact ⟨x :: xs, r, e', .drawn h hrest⟩

namespace Draws

variable {n k : Nat} {e e' : E} {xs : List (Vector UInt8 n)} {r : Except StoreError Unit}

theorem length_le (h : Draws n k e xs r e') : xs.length ≤ k := by
  induction h with
  | done | failed => exact Nat.zero_le _
  | drawn _ _ ih => exact Nat.succ_le_succ ih

/-- Draws succeed exactly if all of them do. -/
theorem ok_iff (h : Draws n k e xs r e') : r = .ok () ↔ xs.length = k := by
  induction h with
  | done => exact iff_of_true rfl rfl
  | failed => exact iff_of_false (by simp) (Nat.zero_ne_add_one _)
  | drawn _ _ ih => rw [ih, List.length_cons, Nat.add_right_cancel_iff]

/-- An engine answers in one way. -/
theorem unique (h : Draws n k e xs r e') {xs₁ : List (Vector UInt8 n)} {r₁ : Except StoreError Unit}
    {e₁ : E} (h₁ : Draws n k e xs₁ r₁ e₁) : xs₁ = xs ∧ r₁ = r ∧ e₁ = e' := by
  induction h generalizing xs₁ with
  | done e =>
    cases h₁
    exact ⟨rfl, rfl, rfl⟩
  | failed h =>
    cases h₁ with
    | failed h₁ =>
      rw [h, Prod.mk.injEq, Except.error.injEq] at h₁
      exact ⟨rfl, congrArg Except.error h₁.1.symm, h₁.2.symm⟩
    | drawn h₁ _ =>
      rw [h, Prod.mk.injEq] at h₁
      exact absurd h₁.1 (by simp)
  | drawn h _ ih =>
    cases h₁ with
    | failed h₁ =>
      rw [h, Prod.mk.injEq] at h₁
      exact absurd h₁.1 (by simp)
    | drawn h₁ hrest =>
      rw [h, Prod.mk.injEq, Except.ok.injEq] at h₁
      obtain ⟨rfl, rfl⟩ := h₁
      obtain ⟨rfl, hr, he⟩ := ih hrest
      exact ⟨rfl, hr, he⟩

end Draws

end ObliviousStore
