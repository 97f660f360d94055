import Apfs.Tree.Node

namespace Apfs

/-!
# Writing B-tree nodes

* `NodeContents` — everything that a node holds.
* `NodeContents.write` — a block with the node written over it: keys in order from the start of
  the key area, values from the end of the value area downwards, and no free lists.
-/

/-- What a node holds. -/
structure NodeContents where
  /-- The identifier of the node. -/
  identifier : ObjectId
  /-- The transaction that last changed the node. -/
  transaction : TransactionId
  /-- Whether the node is a root. -/
  isRoot : Bool
  /-- The number of levels below the node. -/
  level : UInt16
  /-- The flags of the object that the node is. -/
  storage : ObjectFlags
  /-- The subtype of the object that the node is. -/
  subtype : ObjectType
  /-- The flags of the tree, written to the end of a root. -/
  treeFlags : TreeFlags
  /-- The fixed sizes of keys and of values, or none if they vary. -/
  fixedSizes : Option (UInt32 × UInt32)
  /-- The entries, in order. -/
  entries : List Entry

namespace NodeContents

/-- The block with `piece` at `start`. -/
def put (block : ByteArray) (start : Nat) (piece : ByteArray) : Except Error ByteArray :=
  if start + piece.size ≤ block.size then .ok (Bytes.overlay block start piece)
  else .error (.inputTooSmall (start + piece.size) block.size)

/-- The number of bytes of an entry in the table of contents. -/
def tableEntrySize (c : NodeContents) : Nat :=
  if c.fixedSizes.isSome then Layout.size KeyValueOffset else Layout.size KeyValueLocation

/-- The number of bytes of the table of contents. -/
def tableSize (c : NodeContents) : Nat := c.entries.length * c.tableEntrySize

/-- The offset of the first key. -/
def keyStart (c : NodeContents) : Nat := Layout.size NodeHeader + c.tableSize

/-- A block to which some entries have been written. -/
structure Progress where
  /-- The block. -/
  block : ByteArray
  /-- The number of bytes that the keys take. -/
  keyBytes : Nat
  /-- The number of bytes that the values take. -/
  valueBytes : Nat

/-- Writes the entry at `index`; the values end at `valueEnd`. -/
def putEntry (c : NodeContents) (valueEnd : Nat) (p : Progress) (entry : Entry) (index : Nat) :
    Except Error Progress := do
  let { key, value } := entry
  let block ← put p.block (c.keyStart + p.keyBytes) key
  -- The offset of a value counts back from the end of all values to its first byte.
  let valueBytes := p.valueBytes + value.size
  if valueEnd < valueBytes then throw (.fieldOutOfBounds "value")
  let block ← put block (valueEnd - valueBytes) value
  let places : KeyValueLocation :=
    { key := ⟨UInt16.ofNat p.keyBytes, UInt16.ofNat key.size⟩
      value := ⟨UInt16.ofNat valueBytes, UInt16.ofNat value.size⟩ }
  let tableEntry :=
    if c.fixedSizes.isSome then encoded (KeyValueOffset.mk places.key.offset places.value.offset)
    else encoded places
  let block ← put block (Layout.size NodeHeader + index * c.tableEntrySize) tableEntry
  return ⟨block, p.keyBytes + key.size, valueBytes⟩

/-- The flags of the node.  A node without levels below it is a leaf. -/
def flags (c : NodeContents) : NodeFlags :=
  let root : NodeFlags := if c.isRoot then .root else ⟨0⟩
  let leaf : NodeFlags := if c.level = 0 then .leaf else ⟨0⟩
  let fixedSize : NodeFlags := if c.fixedSizes.isSome then .fixedSize else ⟨0⟩
  (root.union leaf).union fixedSize

/-- The header of the node.  Its checksum is left zero. -/
def header (c : NodeContents) (keyBytes freeBytes : Nat) : NodeHeader :=
  let noPlaces : NodeLocation := ⟨noValueOffset, 0⟩
  { object :=
      { checksum := 0
        identifier := c.identifier
        transaction := c.transaction
        type := .ofParts (if c.isRoot then .treeRoot else .treeNode) c.storage
        subtype := .ofParts c.subtype .empty }
    flags := c.flags
    level := c.level
    keyCount := UInt32.ofNat c.entries.length
    table := ⟨0, UInt16.ofNat c.tableSize⟩
    freeSpace := ⟨UInt16.ofNat keyBytes, UInt16.ofNat freeBytes⟩
    freeKeys := noPlaces
    freeValues := noPlaces }

/-- The information about the tree whose root has `nodeSize` bytes. -/
def info (c : NodeContents) (nodeSize : Nat) : TreeInfo :=
  let (keySize, valueSize) := c.fixedSizes.getD (0, 0)
  { parameters := { flags := c.treeFlags, nodeSize := UInt32.ofNat nodeSize, keySize, valueSize }
    longestKey := keySize
    longestValue := valueSize
    keyCount := 0
    nodeCount := 0 }

/-- The block with the node written over it.  Fails if the node does not fit. -/
def write (c : NodeContents) (block : ByteArray) : Except Error ByteArray := do
  let infoSize := if c.isRoot then Layout.size TreeInfo else 0
  if block.size < infoSize then throw (.inputTooSmall infoSize block.size)
  let valueEnd := block.size - infoSize
  let p ← c.entries.zipIdx.foldlM (fun p (entry, index) => c.putEntry valueEnd p entry index)
    (Progress.mk block 0 0)
  let valueStart := valueEnd - p.valueBytes
  let keyEnd := c.keyStart + p.keyBytes
  if valueStart < keyEnd then throw (.fieldOutOfBounds "free_space")
  let written ← encode (c.header p.keyBytes (valueStart - keyEnd)) p.block
  if c.isRoot then put written valueEnd (encoded (c.info block.size)) else return written

end NodeContents

end Apfs
