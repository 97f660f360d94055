import Apfs.Object.Header

namespace Apfs

/-!
# Structures of object maps

An object map tells where the versions of virtual objects are.  Its header names the tree that
holds the mappings; the key of a mapping is an object and the transaction that wrote the version.

* `ObjectMapHeader`, `ObjectMapFlags` — the header of an object map.
* `ObjectMapKey` — the key of a mapping; keys are ordered by object, then by transaction.
* `ObjectMapValue`, `MappingFlags` — where a version is, and whether it is a deletion.
-/

/-! ### Headers -/

/-- The flags of an object map. -/
structure ObjectMapFlags where
  /-- The flags as a number. -/
  bits : UInt32
deriving DecidableEq, Inhabited

instance : Layout ObjectMapFlags := .flagSet ObjectMapFlags.mk ObjectMapFlags.bits

/-- The header of an object map. -/
structure ObjectMapHeader where
  /-- The header of the object that the map is. -/
  object : ObjectHeader
  /-- The flags of the map. -/
  flags : ObjectMapFlags
  /-- The number of snapshots. -/
  snapshotCount : UInt32
  /-- The type of the tree of mappings. -/
  treeType : TypeWord
  /-- The type of the tree of snapshots. -/
  snapshotTreeType : TypeWord
  /-- The identifier of the tree of mappings. -/
  tree : ObjectId
  /-- The identifier of the tree of snapshots. -/
  snapshotTree : ObjectId
  /-- The transaction of the latest snapshot. -/
  latestSnapshot : TransactionId
  /-- The first transaction of a revert in progress. -/
  revertFirst : TransactionId
  /-- The last transaction of a revert in progress. -/
  revertLast : TransactionId
deriving DecidableEq, Inhabited

instance : Layout ObjectMapHeader :=
  .record
    (.andColumn "object" ObjectHeader <|
      .andColumn "flags" ObjectMapFlags <|
      .andColumn "snapshot_count" UInt32 <|
      .andColumn "tree_type" TypeWord <|
      .andColumn "snapshot_tree_type" TypeWord <|
      .andColumn "tree_oid" ObjectId <|
      .andColumn "snapshot_tree_oid" ObjectId <|
      .andColumn "most_recent_snapshot_identifier" TransactionId <|
      .andColumn "pending_revert_minimum_identifier" TransactionId <|
      .column "pending_revert_maximum_identifier" TransactionId)
    (fun (object, flags, snapshotCount, treeType, snapshotTreeType, tree, snapshotTree,
        latestSnapshot, revertFirst, revertLast) =>
      { object, flags, snapshotCount, treeType, snapshotTreeType, tree, snapshotTree,
        latestSnapshot, revertFirst, revertLast })
    (fun h => (h.object, h.flags, h.snapshotCount, h.treeType, h.snapshotTreeType, h.tree,
      h.snapshotTree, h.latestSnapshot, h.revertFirst, h.revertLast))

/-! ### Mappings -/

/-- The key of a mapping. -/
structure ObjectMapKey where
  /-- The object. -/
  object : VirtualId
  /-- The transaction that wrote the version. -/
  transaction : TransactionId
deriving DecidableEq, Hashable, Inhabited

instance : Layout ObjectMapKey :=
  .record (.andColumn "oid" VirtualId <| .column "xid" TransactionId)
    (fun (object, transaction) => { object, transaction })
    (fun k => (k.object, k.transaction))

/-- Keys are ordered by object, then by transaction. -/
instance : Ord ObjectMapKey where
  compare a b :=
    (compare a.object.value b.object.value).then
      (compare a.transaction.value b.transaction.value)

/-- The flags of a mapping. -/
structure MappingFlags where
  /-- The flags as a number. -/
  bits : UInt32
deriving DecidableEq, Inhabited

instance : Layout MappingFlags := .flagSet MappingFlags.mk MappingFlags.bits

namespace MappingFlags

/-- The object was deleted, and the mapping only says so. -/
def deleted : MappingFlags := ⟨0x01⟩

/-- Whether all flags of `g` are among those of `f`. -/
def contains (f g : MappingFlags) : Bool := f.bits &&& g.bits = g.bits

end MappingFlags

/-- The value of a mapping. -/
structure ObjectMapValue where
  /-- The flags of the mapping. -/
  flags : MappingFlags
  /-- The number of bytes of the object. -/
  size : UInt32
  /-- The block where the object starts. -/
  address : BlockAddress
deriving DecidableEq, Inhabited

instance : Layout ObjectMapValue :=
  .record
    (.andColumn "flags" MappingFlags <|
      .andColumn "size_bytes" UInt32 <|
      .column "address" BlockAddress)
    (fun (flags, size, address) => { flags, size, address })
    (fun v => (v.flags, v.size, v.address))

/-- Whether the mapping only says that the object was deleted. -/
def ObjectMapValue.isDeleted (v : ObjectMapValue) : Bool := v.flags.contains .deleted

end Apfs
