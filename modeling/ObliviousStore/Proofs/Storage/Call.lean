/-
  Calls to a backend, one after another.

  A call is a command, or an access that brings an engine of its own.  What a call can
  do to a backend is little (`BackendCall.op_cases`): it changes nothing, it puts one
  packed bucket at the address it names (`BackendCall.Puts`), or it is upkeep.  A session
  makes calls whatever they answer, each on the state that the one before left.
-/
import ObliviousStore.Proofs.Storage.Access
import ObliviousStore.Proofs.Storage.History

namespace ObliviousStore

theorem Except.isOk_map {ε α β : Type} (f : α → β) (r : Except ε α) : (r.map f).isOk = r.isOk := by
  cases r <;> rfl

theorem Except.map_eq_error {ε α β : Type} {f : α → β} {r : Except ε α} {err : ε}
    (h : r.map f = .error err) : r = .error err := by
  cases r with
  | error err' => exact congrArg Except.error (Except.error.inj h)
  | ok a => exact absurd h (by simp [Except.map])

/-- Runs an operation beside an engine that lives only as long as the run. -/
def Op.beside {σ E α : Type} (e : E) (x : Op (σ × E) α) : Op σ α := fun s =>
  let r := x (s, e)
  ⟨r.result, r.state.1, r.log⟩

theorem Op.run_beside {σ E α : Type} (e : E) (x : Op (σ × E) α) (s : σ) :
    (beside e x).run s =
      ⟨(x.run (s, e)).result, (x.run (s, e)).state.1, (x.run (s, e)).log⟩ := rfl

namespace Storage

/-- A call to a backend. -/
inductive BackendCall (A X : Type) : Type 1 where
  | command (c : Command A X)
  | access {size : Nat} {E β : Type} [CryptoEngine E] (e : E) (a : A)
      (change : Bucket size → β × Bucket size)

variable {S A X : Type} [Backend S A] [Upkeep S A X]

/-- The call as an operation, whatever it answers. -/
def BackendCall.op : BackendCall A X → Op S Unit
  | command c => c.op
  | access e a change => do
    let _ ← Op.beside e (Storage.access a change)

/-- What calls one after another come to. -/
structure Session (S : Type) where
  answers : List (Except StoreError Unit)
  state : S
  log : List Event

/-- Makes calls one after another, also after one that failed. -/
def session : List (BackendCall A X) → S → Session S
  | [], s => ⟨[], s, []⟩
  | c :: calls, s =>
    let now := c.op.run s
    let later := session calls now.state
    ⟨now.result :: later.answers, later.state, now.log ++ later.log⟩

/-- A call that succeeds in state `s` puts a packed bucket at an address: the one that
    it brings, or the packed form of the bucket that it writes, or of what the change
    of an access left, encrypted. -/
inductive BackendCall.Puts (s : S) : BackendCall A X → A → PackedBucket → Prop where
  | stored (a : A) (p : PackedBucket) : Puts s (.command (.deposit a (.store p))) a p
  | written {size : Nat} {bucket : Bucket size} {p : PackedBucket} (a : A)
      (hlength : bucket.length = (Backend.metadata s).bucketSize) (hpack : bucket.pack = .ok p) :
      Puts s (.command (.deposit a (.write bucket))) a p
  | accessed {size : Nat} {E β : Type} [CryptoEngine E] {e e₁ : E} {a : A}
      {change : Bucket size → β × Bucket size} {plain sealed : Bucket size} {p : PackedBucket}
      {l : List Event} (hplain : (readPlain size a).run (s, e) = ⟨.ok plain, (s, e₁), l⟩)
      (hchange : sealed.length = (change plain).2.length)
      (hlength : sealed.length = (Backend.metadata s).bucketSize) (hpack : sealed.pack = .ok p) :
      Puts s (.access e a change) a p

variable {s : S} {c : BackendCall A X}

theorem state_session_nil (s : S) : (session ([] : List (BackendCall A X)) s).state = s := rfl

theorem state_session_cons (c : BackendCall A X) (calls : List (BackendCall A X)) (s : S) :
    (session (c :: calls) s).state = (session calls (c.op.run s).state).state := rfl

theorem state_session_append (calls calls' : List (BackendCall A X)) (s : S) :
    (session (calls ++ calls') s).state = (session calls' (session calls s).state).state := by
  induction calls generalizing s with
  | nil => rfl
  | cons c calls ih => exact ih (c.op.run s).state

theorem BackendCall.run_access {size : Nat} {E β : Type} [CryptoEngine E] (e : E) (a : A)
    (change : Bucket size → β × Bucket size) (s : S) :
    (BackendCall.access e a change : BackendCall A X).op.run s =
      ⟨((Storage.access a change).run (s, e)).result.map fun _ => (),
        ((Storage.access a change).run (s, e)).state.1,
        ((Storage.access a change).run (s, e)).log⟩ := by
  rw [op, Op.run_discard, Op.run_beside]

/-- All that a call can do to a backend. -/
theorem BackendCall.op_cases (c : BackendCall A X) (s : S) :
    (c.op.run s).state = s ∨
    (∃ a p, c.Puts s a p ∧ Backend.inRange s a ∧ (c.op.run s).result = .ok () ∧
      (c.op.run s).state = Backend.put s a p) ∨
    ∃ x, c = .command (.upkeep x) := by
  cases c with
  | command c =>
    cases c with
    | deposit a d =>
      rcases d.op_cases a s with ⟨-, err, l, hrun⟩ | ⟨p, l, hkept, -, hin, hrun⟩
      · refine .inl ?_
        rw [op, Command.op, hrun]
      · have hrun' : (BackendCall.command (.deposit a d) : BackendCall A X).op.run s =
            ⟨.ok (), Backend.put s a p, l⟩ := hrun
        refine .inr (.inl ⟨a, p, ?_, hin, by rw [hrun'], by rw [hrun']⟩)
        rw [Deposit.kept, if_pos hin] at hkept
        cases d with
        | store q =>
          obtain rfl : q = p := Option.some.inj hkept
          exact .stored a q
        | write bucket =>
          rw [Deposit.content] at hkept
          split at hkept
          · rename_i hlength
            rw [Bucket.pack_eq_ok] at hkept
            exact .written a hlength ((Bucket.pack_eq_ok bucket).trans
              (congrArg Except.ok (Option.some.inj hkept)))
          · exact absurd hkept (by simp [Except.toOption])
    | fetch a =>
      refine .inl ?_
      rw [op, Command.op, Op.run_discard, state_fetch]
    | read size a =>
      refine .inl ?_
      rw [op, Command.op, Op.run_discard, state_read]
    | upkeep x => exact .inr (.inr ⟨x, rfl⟩)
  | @access size E β _ e a change =>
    rw [run_access]
    rcases hrun : (Storage.access a change).run (s, e) with ⟨r, ⟨s', e'⟩, l⟩
    rcases access_cases hrun with ⟨err, -, hs⟩ | ⟨plain, e₁, r₂, l₁, l₂, hplain, hwrite, rfl⟩
    · exact .inl hs
    · rcases writePlain_cases hwrite with ⟨err, -, hs⟩ |
        ⟨sealed, p, l', rfl, hseal, hlength, hpack, hin, hs⟩
      · exact .inl hs
      · have hchange := Op.length_forEach (x := Block.encrypt) (change plain).2 e₁
        rw [hseal] at hchange
        exact .inr (.inl ⟨a, p, .accessed hplain hchange hlength hpack, hin, rfl, hs⟩)

theorem BackendCall.metadata_op (c : BackendCall A X) (s : S) :
    Backend.metadata (c.op.run s).state = Backend.metadata s := by
  rcases c.op_cases s with hs | ⟨a, p, -, -, -, hs⟩ | ⟨x, rfl⟩
  · rw [hs]
  · rw [hs, Backend.metadata_put]
  · exact Upkeep.metadata_op

theorem BackendCall.inRange_op (c : BackendCall A X) (s : S) (a : A) :
    Backend.inRange (c.op.run s).state a = Backend.inRange s a := by
  rcases c.op_cases s with hs | ⟨b, p, -, -, -, hs⟩ | ⟨x, rfl⟩
  · rw [hs]
  · rw [hs, Backend.inRange_put]
  · exact Upkeep.inRange_op

theorem BackendCall.state_of_error {err : StoreError} (h : (c.op.run s).result = .error err) :
    (c.op.run s).state = s := by
  rcases c.op_cases s with hs | ⟨a, p, -, -, hok, -⟩ | ⟨x, rfl⟩
  · exact hs
  · exact absurd (hok.symm.trans h) (by simp)
  · exact Upkeep.state_of_error h

theorem metadata_session (calls : List (BackendCall A X)) (s : S) :
    Backend.metadata (session calls s).state = Backend.metadata s := by
  induction calls generalizing s with
  | nil => rfl
  | cons c calls ih => rw [state_session_cons, ih, c.metadata_op]

/-- A bucket of the right length that is written is kept. -/
theorem BackendCall.exists_slot_write (a : A) (bucket : Bucket size) (hin : Backend.inRange s a)
    (hlength : bucket.length = (Backend.metadata s).bucketSize) :
    ∃ p, Backend.slot
      ((BackendCall.command (.deposit a (.write bucket)) : BackendCall A X).op.run s).state a =
        some p := by
  have hrun := run_write (Bucket.pack_eq_ok bucket) a s
  rw [if_pos hlength, if_pos hin] at hrun
  rw [op, Command.op, Deposit.op, hrun]
  exact ⟨_, Backend.slot_put_self hin⟩

end Storage

end ObliviousStore
