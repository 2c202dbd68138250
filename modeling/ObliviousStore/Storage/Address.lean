/-
  Addresses — where a backend keeps its buckets.

  A tree is addressed by a level, the root being level 0, and a node within
  the level; a flat backend by one of its three regions and an offset.  Nodes
  are ordered level by level (`TreeTag.order`), which is the order a tree is
  listed in.  `Location` is an address of either kind, as it stands in the
  record of a physical access.
-/
import Std.Data.ExtTreeMap

namespace ObliviousStore

/-- A node of a tree. -/
structure TreeTag where
  /-- The distance from the root. -/
  level : UInt32
  /-- The position within the level, from the left. -/
  node : UInt32
deriving DecidableEq, Repr

/-- The order of nodes: level by level, and from the left within a level. -/
abbrev TreeTag.order : TreeTag → TreeTag → Ordering :=
  compareLex (compareOn TreeTag.level) (compareOn TreeTag.node)

instance : Std.LawfulEqCmp TreeTag.order where
  eq_of_compare {a b} h := by
    cases a
    cases b
    simp [compareLex, compareOn, Ordering.then_eq_eq] at h
    simp [h]

/-- A part of a flat backend. -/
inductive Region where
  /-- The slots that hold the data. -/
  | mainMemory
  /-- The pool of slots read only to hide an access. -/
  | dummy
  /-- The slots that are filled during an epoch and emptied at its end. -/
  | shelter
deriving DecidableEq, Repr

/-- A slot of a flat backend. -/
structure SqrtAddress where
  region : Region
  offset : UInt32
deriving DecidableEq, Repr

/-- A place in one of the two kinds of backend. -/
inductive Location where
  | node (tag : TreeTag)
  | slot (address : SqrtAddress)
deriving DecidableEq, Repr

def Region.text : Region → String
  | mainMemory => "MainMemory"
  | dummy => "Dummy"
  | shelter => "Shelter"

def Location.text : Location → String
  | node tag =>
    "TreeTag \x7b level: " ++ toString tag.level ++ ", node: " ++ toString tag.node ++ " \x7d"
  | slot address =>
    "SqrtAddress \x7b region: " ++ address.region.text ++ ", offset: " ++
      toString address.offset ++ " \x7d"

end ObliviousStore
