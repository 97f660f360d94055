namespace Apfs

/-!
# Identifiers

The 64-bit numbers by which a container names its objects, blocks and transactions.  Each
kind is a type of its own, so that none is taken for another.

* `ObjectId` — an object whose storage is not known from the identifier alone.
* `VirtualId` — an object found through an object map.
* `BlockAddress` — a block, counted from the first block of the container.
* `TransactionId` — a transaction; later transactions have larger numbers.
-/

/-- Names an object; how the object is stored is known from elsewhere. -/
structure ObjectId where
  /-- The number on disk. -/
  value : UInt64
deriving DecidableEq, Hashable, Inhabited

/-- Names a virtual object, whose place an object map tells. -/
structure VirtualId where
  /-- The number on disk. -/
  value : UInt64
deriving DecidableEq, Hashable, Inhabited

/-- The position of a block; block 0 is the first of the container. -/
structure BlockAddress where
  /-- The number on disk. -/
  value : UInt64
deriving DecidableEq, Hashable, Inhabited

/-- Names a transaction.  Transactions are numbered upwards from 1. -/
structure TransactionId where
  /-- The number on disk. -/
  value : UInt64
deriving DecidableEq, Hashable, Inhabited

/-- Takes the object to be virtual. -/
def ObjectId.toVirtual (id : ObjectId) : VirtualId := ⟨id.value⟩

/-- Takes the object to be stored at the block of the same number. -/
def ObjectId.toAddress (id : ObjectId) : BlockAddress := ⟨id.value⟩

end Apfs
