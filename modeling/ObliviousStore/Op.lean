/-
  Operations — computations that read and change a state, may fail, and report
  events.

  A failure keeps the state it was met in and the events reported before it:
  `Outcome` carries all three.  `Op` is a lawful monad over outcomes; `run_bind_ok`
  and `run_bind_error` say how a run continues and where it stops.  The rest
  of the module moves operations between states: a pair is run on one of its
  halves (`onFst`, `onSnd`), on a value that lives only as long as the run
  (`within`), or on every member of a list in turn (`forEach`).
-/
import ObliviousStore.Log

namespace ObliviousStore

/-- What a run leaves behind. -/
structure Outcome (σ α : Type) where
  /-- The value, or the failure that ended the run. -/
  result : Except StoreError α
  /-- The state at the end, also after a failure. -/
  state : σ
  /-- The events reported, oldest first. -/
  log : List Event

/-- A computation on a state `σ` that may fail and reports events. -/
def Op (σ α : Type) : Type := σ → Outcome σ α

namespace Op

variable {σ τ α β : Type}

def run (x : Op σ α) (s : σ) : Outcome σ α := x s

@[ext] theorem ext {x y : Op σ α} (h : ∀ s, x.run s = y.run s) : x = y := funext h

/-- Continues a run with its value; a failure ends it. -/
def andThen (x : Op σ α) (f : α → Op σ β) : Op σ β := fun s =>
  match x s with
  | ⟨.error e, s', l⟩ => ⟨.error e, s', l⟩
  | ⟨.ok a, s', l⟩ =>
    let rest := f a s'
    ⟨rest.result, rest.state, l ++ rest.log⟩

instance : Monad (Op σ) where
  pure a := fun s => ⟨.ok a, s, []⟩
  bind := andThen

protected def throw (e : StoreError) : Op σ α := fun s => ⟨.error e, s, []⟩

instance : MonadExceptOf StoreError (Op σ) where
  throw := Op.throw
  tryCatch x handler := fun s =>
    match x s with
    | ⟨.error e, s', l⟩ =>
      let rest := handler e s'
      ⟨rest.result, rest.state, l ++ rest.log⟩
    | done => done

instance : MonadStateOf σ (Op σ) where
  get := fun s => ⟨.ok s, s, []⟩
  set s := fun _ => ⟨.ok (), s, []⟩
  modifyGet f := fun s => let (a, s') := f s; ⟨.ok a, s', []⟩

def report (e : Event) : Op σ Unit := fun s => ⟨.ok (), s, [e]⟩

/-- The value of a computation that only may fail. -/
def ofExcept (r : Except StoreError α) : Op σ α := fun s => ⟨r, s, []⟩

/-! ## Runs step by step -/

@[simp] theorem run_pure (a : α) (s : σ) : (pure a : Op σ α).run s = ⟨.ok a, s, []⟩ := rfl

@[simp] theorem run_throw (e : StoreError) (s : σ) :
    (throw e : Op σ α).run s = ⟨.error e, s, []⟩ := rfl

@[simp] theorem run_get (s : σ) : (get : Op σ σ).run s = ⟨.ok s, s, []⟩ := rfl

@[simp] theorem run_set (s t : σ) : (set t : Op σ PUnit).run s = ⟨.ok (), t, []⟩ := rfl

@[simp] theorem run_report (e : Event) (s : σ) : (report e).run s = ⟨.ok (), s, [e]⟩ := rfl

@[simp] theorem run_ofExcept (r : Except StoreError α) (s : σ) :
    (ofExcept r).run s = ⟨r, s, []⟩ := rfl

/-- A run that succeeded goes on, and its events come first. -/
theorem run_bind_ok {x : Op σ α} {f : α → Op σ β} {s s' : σ} {a : α} {l : List Event}
    (h : x.run s = ⟨.ok a, s', l⟩) :
    (x >>= f).run s =
      ⟨((f a).run s').result, ((f a).run s').state, l ++ ((f a).run s').log⟩ := by
  simp only [run] at h
  simp [bind, andThen, run, h]

/-- A run that failed stops where it failed. -/
theorem run_bind_error {x : Op σ α} {f : α → Op σ β} {s s' : σ} {e : StoreError} {l : List Event}
    (h : x.run s = ⟨.error e, s', l⟩) : (x >>= f).run s = ⟨.error e, s', l⟩ := by
  simp only [run] at h
  simp [bind, andThen, run, h]

theorem pure_andThen (a : α) (f : α → Op σ β) : andThen (pure a) f = f a := by
  ext s
  rcases h : f a s with ⟨r, s', l⟩
  simp [run, andThen, pure, h]

theorem andThen_pure (x : Op σ α) : andThen x pure = x := by
  ext s
  rcases h : x s with ⟨_ | a, s', l⟩ <;> simp [run, andThen, pure, h]

theorem andThen_assoc {γ : Type} (x : Op σ α) (f : α → Op σ β) (g : β → Op σ γ) :
    andThen (andThen x f) g = andThen x fun a => andThen (f a) g := by
  ext s
  rcases hx : x s with ⟨_ | a, s', l⟩
  · simp [run, andThen, hx]
  · rcases hf : f a s' with ⟨_ | b, s'', l'⟩ <;> simp [run, andThen, hx, hf]

instance : LawfulMonad (Op σ) := LawfulMonad.mk' _ andThen_pure pure_andThen andThen_assoc

/-! ## Parts of a state -/

/-- Runs an operation on the first half of a pair. -/
def onFst (x : Op σ α) : Op (σ × τ) α := fun (s, t) =>
  let r := x s
  ⟨r.result, (r.state, t), r.log⟩

/-- Runs an operation on the second half of a pair. -/
def onSnd (x : Op τ α) : Op (σ × τ) α := fun (s, t) =>
  let r := x t
  ⟨r.result, (s, r.state), r.log⟩

/-- Runs an operation on a value that it may change beside the state, and
    returns the value as it was left. -/
def within (a : α) (x : Op (α × σ) Unit) : Op σ α := fun s =>
  let r := x (a, s)
  ⟨r.result.map fun _ => r.state.1, r.state.2, r.log⟩

/-- Runs an operation on each member of a list in order.  A failure ends the
    run; the members before it keep what the operation made of them, and the
    one it was met at keeps what was left there. -/
def forEach (x : Op (α × σ) Unit) : Op (List α × σ) Unit
  | ([], s) => ⟨.ok (), ([], s), []⟩
  | (a :: as, s) =>
    match x (a, s) with
    | ⟨.error e, (a', s'), l⟩ => ⟨.error e, (a' :: as, s'), l⟩
    | ⟨.ok (), (a', s'), l⟩ =>
      let rest := forEach x (as, s')
      ⟨rest.result, (a' :: rest.state.1, rest.state.2), l ++ rest.log⟩

@[simp] theorem run_onFst (x : Op σ α) (s : σ) (t : τ) :
    (onFst x).run (s, t) = ⟨(x.run s).result, ((x.run s).state, t), (x.run s).log⟩ := rfl

@[simp] theorem run_onSnd (x : Op τ α) (s : σ) (t : τ) :
    (onSnd x).run (s, t) = ⟨(x.run t).result, (s, (x.run t).state), (x.run t).log⟩ := rfl

theorem run_within (a : α) (x : Op (α × σ) Unit) (s : σ) :
    (within a x).run s =
      ⟨(x.run (a, s)).result.map fun _ => (x.run (a, s)).state.1, (x.run (a, s)).state.2,
        (x.run (a, s)).log⟩ := rfl

/-! ## Buffers -/

/-- Makes sure that a buffer of so many bytes can exist. -/
def reserve (bytes : Nat) : Op σ Unit :=
  if bytes ≤ Bytes.maxLength then pure () else throw .oversizedBuffer

end Op

end ObliviousStore
