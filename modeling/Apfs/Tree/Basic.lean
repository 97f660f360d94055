import Apfs.Block.Reader
import Apfs.ObjectMap.Layout
import Apfs.Tree.Node

namespace Apfs

/-!
# B-trees

* `Tree` — a tree, known by its root and the information there; `Tree.ofBlock` accepts a block.
* `ObjectLookup` — finds the version of a virtual object that a transaction sees.
* `Tree.child` — reads the child that an index entry names.
* `Tree.maxDepth` — how many nodes are followed from the root to a leaf.
-/

/-- A B-tree. -/
structure Tree where
  /-- The root node. -/
  root : Node
  /-- The information at the end of the root node. -/
  info : TreeInfo

/-- Finds the newest mapping of a virtual object that is not newer than a transaction.  Gives none
    if there is no such mapping, or if it says that the object is deleted. -/
abbrev ObjectLookup (σ : Type) :=
  VirtualId → TransactionId → EStateM Error σ (Option (ObjectMapKey × ObjectMapValue))

/-- Finds no object.  It serves trees that name their children by block address. -/
def ObjectLookup.empty {σ : Type} : ObjectLookup σ := fun _ _ => return none

namespace Tree

/-- The greatest number of nodes on the way from the root to a leaf. -/
def maxDepth : Nat := 16

/-- Accepts a block as the root of a tree. -/
def ofBlock (block : Block) : Except Error Tree := do
  let root ← Node.ofBlock block
  if root.header.object.type.objectType ≠ .treeRoot then throw .notRoot
  match ← root.info with
  | some info => return ⟨root, info⟩
  | none => throw .notRoot

variable {σ : Type}

/-- The block of the child with the given identifier. -/
def childAddress (t : Tree) (lookup : ObjectLookup σ) (id : ObjectId) :
    EStateM Error σ BlockAddress :=
  match t.info.parameters.childStorage with
  | .physical => return id.toAddress
  | .ephemeral => throw .ephemeralChild
  | .virtual => do
    match ← lookup id.toVirtual t.root.header.object.transaction with
    | some (_, mapping) => return mapping.address
    | none => throw (.virtualNotFound id.toVirtual)

/-- Reads the child that an entry of `parent` names.  Its checksum has to be good, it has to be
    one level below its parent, and of the same subtype as the root. -/
def child (t : Tree) (reader : BlockReader σ) (lookup : ObjectLookup σ) (parent : Node)
    (entry : Entry) : EStateM Error σ Node := do
  let id ← lift entry.childId
  let address ← t.childAddress lookup id
  let block ← reader.readVerified address
  let node ← lift (Node.ofBlock block)
  if node.header.level.toNat + 1 ≠ parent.header.level.toNat then throw (.node .childLevel)
  if node.header.object.subtype ≠ t.root.header.object.subtype then throw (.node .childSubtype)
  return node

end Tree

end Apfs
