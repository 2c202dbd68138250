/-
  Square-root storage — three rows of slots: the data, a pool of dummies, and a
  shelter that is filled during an epoch and emptied at its end.
-/
import ObliviousStore.Storage.Basic

namespace ObliviousStore

/-- Three rows of slots for buckets. -/
structure SqrtStorage where
  metadata : Metadata
  /-- The number of slots in the pool of dummies, and in the shelter. -/
  squaredM : Nat
  mainMemory : Array (Option PackedBucket)
  dummies : Array (Option PackedBucket)
  shelter : Array (Option PackedBucket)

namespace SqrtStorage

/-- Sets up a storage with empty slots.  Every offset has to fit 32 bits. -/
def create {σ : Type} (id : UInt32) (capacity bucketSize squaredM : Nat) (instanceHash : String) :
    Op σ SqrtStorage := do
  Op.report (.sqrtSetUp id capacity squaredM)
  if capacity = 0 ∨ squaredM = 0 ∨ bucketSize = 0 ∨
      UInt32.size ≤ capacity ∨ UInt32.size ≤ squaredM then
    throw .invalidConfiguration
  else
    return {
      metadata := ⟨id, capacity, bucketSize, instanceHash, .flat⟩
      squaredM
      mainMemory := Array.replicate capacity none
      dummies := Array.replicate squaredM none
      shelter := Array.replicate squaredM none }

def slots (s : SqrtStorage) : Region → Array (Option PackedBucket)
  | .mainMemory => s.mainMemory
  | .dummy => s.dummies
  | .shelter => s.shelter

def fillSlot (s : SqrtStorage) (a : SqrtAddress) (p : PackedBucket) : SqrtStorage :=
  let i := a.offset.toNat
  match a.region with
  | .mainMemory => { s with mainMemory := s.mainMemory.setIfInBounds i (some p) }
  | .dummy => { s with dummies := s.dummies.setIfInBounds i (some p) }
  | .shelter => { s with shelter := s.shelter.setIfInBounds i (some p) }

theorem slots_fillSlot (s : SqrtStorage) (a : SqrtAddress) (p : PackedBucket) (r : Region) :
    (s.fillSlot a p).slots r =
      if r = a.region then (s.slots r).setIfInBounds a.offset.toNat (some p) else s.slots r := by
  rcases a with ⟨⟨⟩, i⟩ <;> cases r <;> rfl

instance : Backend SqrtStorage SqrtAddress where
  metadata := metadata
  inRange s a := a.offset.toNat < (s.slots a.region).size
  slot s a := ((s.slots a.region)[a.offset.toNat]?).join
  put := fillSlot
  location := .slot
  metadata_put {s a p} := by rcases a with ⟨⟨⟩, i⟩ <;> rfl
  inRange_put {s a b p} := by rw [slots_fillSlot]; split <;> simp
  slot_put_self h := by simp only [decide_eq_true_eq] at h; simp [slots_fillSlot, h]
  slot_put_of_ne {s a b p} h := by
    rw [slots_fillSlot]
    split
    · rename_i hr
      have hi : a.offset.toNat ≠ b.offset.toNat := fun hi => h (by
        rcases a with ⟨ra, ia⟩
        rcases b with ⟨rb, ib⟩
        simp_all [UInt32.toNat_inj])
      rw [Array.getElem?_setIfInBounds_ne hi]
    · rfl
  put_comm {s a b p q} h := by
    rcases a with ⟨ra, i⟩
    rcases b with ⟨rb, j⟩
    have hoffset (hr : ra = rb) : i.toNat ≠ j.toNat := fun hi =>
      h (by rw [hr, UInt32.toNat_inj.1 hi])
    -- slots of two regions lie apart, and slots of one where their offsets do
    cases ra <;> cases rb <;> simp only [fillSlot]
    all_goals rw [Array.setIfInBounds_comm _ _ (hoffset rfl)]

def totalLength (s : SqrtStorage) : Nat := s.mainMemory.size + s.dummies.size + s.shelter.size

def clearShelter : Op SqrtStorage Unit := do
  let s ← get
  Op.report (.shelterCleared s.shelter.size)
  set { s with shelter := s.shelter.map fun _ => none }

end SqrtStorage

end ObliviousStore
