/-
  Tree storage — a bucket for each node of a complete binary tree.

  Level `l` has `2 ^ l` nodes, so a tree of height `h` has `2 ^ (h + 1) - 1`.
  Buckets are kept by node in the order of the nodes, which is the order in
  which a tree is listed (`dump`).
-/
import Std.Data.ExtTreeMap
import ObliviousStore.Storage.Basic

namespace ObliviousStore

/-- The height of the highest tree. -/
abbrev maxTreeHeight : Nat := 31

/-- A complete binary tree of buckets. -/
structure TreeStorage where
  metadata : Metadata
  /-- The level of its leaves. -/
  height : Nat
  buckets : Std.ExtTreeMap TreeTag PackedBucket TreeTag.order

namespace TreeStorage

def width (level : Nat) : Nat := 1 <<< level

/-- The number of nodes of a tree: one fewer than the level below its leaves
    would have. -/
def nodeCount (height : Nat) : Nat := width (height + 1) - 1

/-- Sets up a tree without buckets. -/
def create {σ : Type} (id : UInt32) (height bucketSize : Nat) (instanceHash : String) :
    Op σ TreeStorage := do
  Op.report (.treeSetUp id height bucketSize)
  if maxTreeHeight < height ∨ bucketSize = 0 then throw .invalidConfiguration
  else
    let capacity := nodeCount height
    return ⟨⟨id, capacity, bucketSize, instanceHash, .tree⟩, height, ∅⟩

def hasNode (t : TreeStorage) (tag : TreeTag) : Bool :=
  tag.level.toNat ≤ t.height && tag.node.toNat < width tag.level.toNat

instance : Backend TreeStorage TreeTag where
  metadata := metadata
  inRange := hasNode
  slot t tag := t.buckets[tag]?
  put t tag p := { t with buckets := t.buckets.insert tag p }
  location := .node
  metadata_put := rfl
  inRange_put := rfl
  slot_put_self _ := by simp
  slot_put_of_ne h := by
    simp [Std.ExtTreeMap.getElem?_insert, Std.LawfulEqCmp.compare_eq_iff_eq, Ne.symm h]
  put_comm {t a b p q} h := by
    have hinsert : (t.buckets.insert a p).insert b q = (t.buckets.insert b q).insert a p := by
      apply Std.ExtTreeMap.ext_getElem?
      intro k
      simp only [Std.ExtTreeMap.getElem?_insert, Std.LawfulEqCmp.compare_eq_iff_eq]
      split <;> split <;> simp_all
    exact congrArg (fun buckets => { t with buckets }) hinsert

def occupied (t : TreeStorage) : Nat := t.buckets.size

/-- The blocks of a bucket by identifier and type. -/
abbrev Listing := List (BlockId × BlockType)

def listNode {σ : Type} (size : Nat) (tag : TreeTag) (p : PackedBucket) : Op σ Listing := do
  Op.report (.nodeListed tag)
  let bucket ← Op.ofExcept (p.unpack size)
  let listing := bucket.map fun b => (b.header.id, b.header.kind)
  listing.forM fun (id, kind) => Op.report (.entryListed id kind)
  return listing

/-- Lists the blocks of every bucket, node by node. -/
def dump (size : Nat) : Op TreeStorage (List (TreeTag × Listing)) := do
  let t ← get
  Op.report (.treeListed t.occupied)
  t.buckets.toList.mapM fun (tag, p) => do return (tag, ← listNode size tag p)

end TreeStorage

end ObliviousStore
