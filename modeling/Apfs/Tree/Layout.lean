import Apfs.Object.Header

namespace Apfs

/-!
# Structures of B-tree nodes

A node fills a block.  After its header come the table of contents, the keys growing upwards, free
space, and the values growing downwards from the end.  A root node ends with information about its
tree, before which its values end.

* `NodeLocation`, `KeyValueOffset`, `KeyValueLocation` — places, and the entries of a table of
  contents for entries of fixed and of variable size.
* `NodeFlags`, `NodeHeader` — the header of a node.
* `TreeFlags`, `TreeParameters`, `TreeInfo` — the information about a tree.
-/

/-! ### Places in a node -/

/-- A place in a node. -/
structure NodeLocation where
  /-- The offset; for values, counted back from the end of the value area. -/
  offset : UInt16
  /-- The number of bytes. -/
  length : UInt16
deriving DecidableEq, Inhabited

instance : Layout NodeLocation :=
  .record (.andColumn "offset" UInt16 <| .column "length" UInt16)
    (fun (offset, length) => { offset, length }) (fun l => (l.offset, l.length))

/-- The places of a key and a value of fixed sizes. -/
structure KeyValueOffset where
  /-- The offset of the key. -/
  key : UInt16
  /-- The offset of the value, counted back. -/
  value : UInt16
deriving DecidableEq, Inhabited

instance : Layout KeyValueOffset :=
  .record (.andColumn "key" UInt16 <| .column "value" UInt16)
    (fun (key, value) => { key, value }) (fun e => (e.key, e.value))

/-- The places of a key and a value. -/
structure KeyValueLocation where
  /-- The place of the key. -/
  key : NodeLocation
  /-- The place of the value. -/
  value : NodeLocation
deriving DecidableEq, Inhabited

instance : Layout KeyValueLocation :=
  .record (.andColumn "key" NodeLocation <| .column "value" NodeLocation)
    (fun (key, value) => { key, value }) (fun e => (e.key, e.value))

/-- The value offset of an entry without a value. -/
def noValueOffset : UInt16 := 0xffff

/-- The number of bytes of a value that names a child node. -/
def childValueSize : Nat := 8

/-! ### Node headers -/

/-- The flags of a node. -/
structure NodeFlags where
  /-- The flags as a number. -/
  bits : UInt16
deriving DecidableEq, Inhabited

instance : Layout NodeFlags := .flagSet NodeFlags.mk NodeFlags.bits

namespace NodeFlags

/-- The node is a root, and ends with information about its tree. -/
def root : NodeFlags := ⟨0x0001⟩

/-- The node is a leaf. -/
def leaf : NodeFlags := ⟨0x0002⟩

/-- Keys and values have the sizes that the tree's information gives. -/
def fixedSize : NodeFlags := ⟨0x0004⟩

/-- Whether all flags of `g` are among those of `f`. -/
def contains (f g : NodeFlags) : Bool := f.bits &&& g.bits = g.bits

/-- The flags of `f` and of `g`. -/
def union (f g : NodeFlags) : NodeFlags := ⟨f.bits ||| g.bits⟩

end NodeFlags

/-- The header of a node. -/
structure NodeHeader where
  /-- The header of the object that the node is. -/
  object : ObjectHeader
  /-- The flags of the node. -/
  flags : NodeFlags
  /-- The number of levels below the node. -/
  level : UInt16
  /-- The number of entries. -/
  keyCount : UInt32
  /-- The place of the table of contents, counted from the end of the header. -/
  table : NodeLocation
  /-- The free space, counted from the end of the table. -/
  freeSpace : NodeLocation
  /-- The list of free places for keys. -/
  freeKeys : NodeLocation
  /-- The list of free places for values. -/
  freeValues : NodeLocation
deriving DecidableEq, Inhabited

instance : Layout NodeHeader :=
  .record
    (.andColumn "object" ObjectHeader <|
      .andColumn "flags" NodeFlags <|
      .andColumn "level" UInt16 <|
      .andColumn "number_keys" UInt32 <|
      .andColumn "table_space" NodeLocation <|
      .andColumn "free_space" NodeLocation <|
      .andColumn "key_free_list" NodeLocation <|
      .column "value_free_list" NodeLocation)
    (fun (object, flags, level, keyCount, table, freeSpace, freeKeys, freeValues) =>
      { object, flags, level, keyCount, table, freeSpace, freeKeys, freeValues })
    (fun h => (h.object, h.flags, h.level, h.keyCount, h.table, h.freeSpace, h.freeKeys,
      h.freeValues))

namespace NodeHeader

/-- Whether the node is a root. -/
def isRoot (h : NodeHeader) : Bool := h.flags.contains .root

/-- Whether the node is a leaf. -/
def isLeaf (h : NodeHeader) : Bool := h.flags.contains .leaf

/-- Whether keys and values have fixed sizes. -/
def isFixedSize (h : NodeHeader) : Bool := h.flags.contains .fixedSize

end NodeHeader

/-! ### Information about a tree -/

/-- The flags of a tree. -/
structure TreeFlags where
  /-- The flags as a number. -/
  bits : UInt32
deriving DecidableEq, Inhabited

instance : Layout TreeFlags := .flagSet TreeFlags.mk TreeFlags.bits

namespace TreeFlags

/-- Children are named by ephemeral identifiers. -/
def ephemeral : TreeFlags := ⟨0x08⟩

/-- Children are named by their block addresses. -/
def physical : TreeFlags := ⟨0x10⟩

/-- Whether all flags of `g` are among those of `f`. -/
def contains (f g : TreeFlags) : Bool := f.bits &&& g.bits = g.bits

end TreeFlags

/-- What stays the same about a tree. -/
structure TreeParameters where
  /-- The flags of the tree. -/
  flags : TreeFlags
  /-- The number of bytes of a node. -/
  nodeSize : UInt32
  /-- The number of bytes of a key, or 0 if it varies. -/
  keySize : UInt32
  /-- The number of bytes of a value, or 0 if it varies. -/
  valueSize : UInt32
deriving DecidableEq, Inhabited

instance : Layout TreeParameters :=
  .record
    (.andColumn "flags" TreeFlags <|
      .andColumn "node_size" UInt32 <|
      .andColumn "key_size" UInt32 <|
      .column "value_size" UInt32)
    (fun (flags, nodeSize, keySize, valueSize) => { flags, nodeSize, keySize, valueSize })
    (fun p => (p.flags, p.nodeSize, p.keySize, p.valueSize))

/-- How children are named in the tree.  A tree whose flags say nothing names them by virtual
    identifiers. -/
def TreeParameters.childStorage (p : TreeParameters) : StorageClass :=
  if p.flags.contains .physical then .physical
  else if p.flags.contains .ephemeral then .ephemeral
  else .virtual

/-- The information at the end of a root node. -/
structure TreeInfo where
  /-- What stays the same about the tree. -/
  parameters : TreeParameters
  /-- The number of bytes of the longest key ever stored. -/
  longestKey : UInt32
  /-- The number of bytes of the longest value ever stored. -/
  longestValue : UInt32
  /-- The number of keys in the tree. -/
  keyCount : UInt64
  /-- The number of nodes in the tree. -/
  nodeCount : UInt64
deriving DecidableEq, Inhabited

instance : Layout TreeInfo :=
  .record
    (.andColumn "fixed" TreeParameters <|
      .andColumn "longest_key" UInt32 <|
      .andColumn "longest_value" UInt32 <|
      .andColumn "key_count" UInt64 <|
      .column "node_count" UInt64)
    (fun (parameters, longestKey, longestValue, keyCount, nodeCount) =>
      { parameters, longestKey, longestValue, keyCount, nodeCount })
    (fun i => (i.parameters, i.longestKey, i.longestValue, i.keyCount, i.nodeCount))

end Apfs
