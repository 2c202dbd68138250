/-
  Scripted engines — an engine whose calls are counted and some of which are
  made to go wrong.

  A script names calls by their method and their number, from 0.  A call can be
  made to fail, in which case the engine behind is not asked, or to return a
  ciphertext or a text that is a byte too short or too long.
-/
import ObliviousStore.Engine.Basic

namespace ObliviousStore

inductive EngineMethod where
  | randomBytes
  | encrypt
  | decrypt
  | shuffle
deriving DecidableEq, Repr

def EngineMethod.failure : EngineMethod → StoreError
  | randomBytes => .randomness
  | encrypt => .encryption
  | decrypt => .authentication
  | shuffle => .shuffle

/-- What is to go wrong. -/
inductive FaultKind where
  /-- The call fails and does nothing. -/
  | failure
  /-- The last byte of the result is missing. -/
  | short
  /-- The result has a zero byte too many. -/
  | long
deriving DecidableEq, Repr

/-- A call that is to go wrong. -/
structure Fault where
  method : EngineMethod
  /-- The number of the call among those of its method. -/
  call : Nat
  kind : FaultKind
deriving DecidableEq, Repr

structure CallCounts where
  randomBytes : Nat
  encrypt : Nat
  decrypt : Nat
  shuffle : Nat
deriving DecidableEq, Repr

namespace CallCounts

def zero : CallCounts := ⟨0, 0, 0, 0⟩

def of (c : CallCounts) : EngineMethod → Nat
  | .randomBytes => c.randomBytes
  | .encrypt => c.encrypt
  | .decrypt => c.decrypt
  | .shuffle => c.shuffle

def count (c : CallCounts) : EngineMethod → CallCounts
  | .randomBytes => { c with randomBytes := c.randomBytes + 1 }
  | .encrypt => { c with encrypt := c.encrypt + 1 }
  | .decrypt => { c with decrypt := c.decrypt + 1 }
  | .shuffle => { c with shuffle := c.shuffle + 1 }

end CallCounts

/-- An engine that follows a script. -/
structure ScriptedEngine (E : Type) where
  inner : E
  /-- The calls that are to go wrong; the first that fits counts. -/
  faults : List Fault
  /-- The calls made so far, also those that failed. -/
  calls : CallCounts

namespace ScriptedEngine

variable {E α : Type}

/-- What is to go wrong with the next call of a method. -/
def faultFor (e : ScriptedEngine E) (m : EngineMethod) : Option FaultKind :=
  (e.faults.find? fun f => f.method == m && f.call == e.calls.of m).map Fault.kind

/-- Makes a call of a method: counted, failed if the script says so, and its
    result spoilt by `spoil`. -/
def perform (m : EngineMethod) (spoil : FaultKind → α → α) (c : Call E α) :
    Call (ScriptedEngine E) α := fun e =>
  let calls := e.calls.count m
  match e.faultFor m with
  | some .failure => (.error m.failure, { e with calls })
  | fault =>
    let (result, inner) := c e.inner
    (result.map fun a => match fault with
      | some kind => spoil kind a
      | none => a, { e with inner, calls })

/-- A byte too few or too many. -/
def spoilBytes : FaultKind → Bytes → Bytes
  | .failure, x => x
  | .short, x => x.dropLast
  | .long, x => x ++ [0]

instance [CryptoEngine E] : CryptoEngine (ScriptedEngine E) where
  randomBytes n := perform .randomBytes (fun _ x => x) (CryptoEngine.randomBytes n)
  encrypt iv associated text :=
    perform .encrypt spoilBytes (CryptoEngine.encrypt iv associated text)
  decrypt iv associated ciphertext :=
    perform .decrypt spoilBytes (CryptoEngine.decrypt iv associated ciphertext)
  shuffle n := perform .shuffle (fun _ swaps => swaps) (CryptoEngine.shuffle n)

end ScriptedEngine

end ObliviousStore
