/-
  Stopping on failure — for results whose failure leaves nothing to go on with.
-/
import ObliviousStore.Op

namespace ObliviousStore

/-- Goes on with a value, or reports the failure and the reason why it is fatal;
    the run ends there. -/
def orAbort {σ α : Type} (result : Except StoreError α) (reason : String) : Op σ α := do
  match result with
  | .ok a => return a
  | .error e =>
    Op.report (.aborted e reason)
    throw e

end ObliviousStore
