import Apfs.Block.Basic
import Apfs.Tree.Layout

namespace Apfs

/-!
# B-tree nodes

* `Node` — a node: its block, with the header taken apart; `Node.ofBlock` accepts a block as one.
* `Node.info` — the information about the tree at the end of a root node.
* `Node.entry` — the key and the value of an entry.
* `Node.floor` — the last entry that is not greater than what is searched for.
-/

/-- A node of a B-tree. -/
structure Node where
  /-- The block that holds the node. -/
  block : Block
  /-- The header of the node. -/
  header : NodeHeader

/-- The key and the value of an entry. -/
structure Entry where
  /-- The bytes of the key. -/
  key : ByteArray
  /-- The bytes of the value. -/
  value : ByteArray

/-- A way to compare stored keys with what is searched for.  It may fail on keys that are not what
    they should be. -/
abbrev KeyOrder := (key : ByteArray) → Except Error Ordering

/-- The identifier of the child that the value of an index entry names. -/
def Entry.childId (e : Entry) : Except Error ObjectId := decode e.value

namespace Node

/-- The bytes of the node. -/
def data (n : Node) : ByteArray := n.block.data

/-- The number of entries. -/
def size (n : Node) : Nat := n.header.keyCount.toNat

/-- The number of bytes of an entry in the table of contents. -/
def tableEntrySize (n : Node) : Nat :=
  if n.header.isFixedSize then Layout.size KeyValueOffset else Layout.size KeyValueLocation

/-- The bytes of a range of the node. -/
def span (n : Node) (start length : Nat) (fault : NodeFault) : Except Error ByteArray :=
  match Bytes.slice? n.data start length with
  | some bytes => .ok bytes
  | none => .error (.node fault)

/-! ### Areas -/

/-- The offset of the table of contents. -/
def tableStart (n : Node) : Nat :=
  Layout.size NodeHeader + n.header.table.offset.toNat

/-- The table of contents, if it lies in the node and is large enough for all entries. -/
def table (n : Node) : Except Error ByteArray := do
  let table ← n.span n.tableStart n.header.table.length.toNat .tableBounds
  if table.size < n.size * n.tableEntrySize then throw (.node .tooManyKeys)
  return table

/-- The offset of the first key. -/
def keyStart (n : Node) : Nat := n.tableStart + n.header.table.length.toNat

/-- The offset just past the values. -/
def valueEnd (n : Node) : Except Error Nat :=
  if n.header.isRoot then
    if n.data.size < Layout.size TreeInfo then .error (.node .rootTooSmall)
    else .ok (n.data.size - Layout.size TreeInfo)
  else .ok n.data.size

/-- The information about the tree, if the node is a root. -/
def info (n : Node) : Except Error (Option TreeInfo) := do
  let start ← n.valueEnd
  if n.header.isRoot then return some (← decodeAt n.data start) else return none

/-! ### Entries -/

/-- Accepts a block as a node: one whose object is a root or another node, and whose table of
    contents is good. -/
def ofBlock (block : Block) : Except Error Node := do
  let subtype := (← block.header).subtype.objectType
  let _ ← block.expectTypes [.treeRoot, .treeNode] subtype
  let node : Node := ⟨block, ← decode block.data⟩
  let _ ← node.table
  return node

/-- The places of a key and a value, the second offset counted back from the end of the values.
    Sizes that the table does not give come from the information about the tree. -/
structure Places where
  /-- The offset of the key from the start of the keys. -/
  keyOffset : Nat
  /-- The number of bytes of the key. -/
  keyLength : Nat
  /-- The offset of the value from the end of the values. -/
  valueOffset : UInt16
  /-- The number of bytes of the value. -/
  valueLength : Nat

/-- The places that the table of contents gives for an entry. -/
def places (n : Node) (table : ByteArray) (index : Nat) (info : TreeInfo) :
    Except Error Places := do
  let offset := index * n.tableEntrySize
  if n.header.isFixedSize then
    let entry : KeyValueOffset ← decodeAt table offset
    let parameters := info.parameters
    return {
      keyOffset := entry.key.toNat
      keyLength := parameters.keySize.toNat
      valueOffset := entry.value
      valueLength := if n.header.isLeaf then parameters.valueSize.toNat else childValueSize }
  else
    let entry : KeyValueLocation ← decodeAt table offset
    return {
      keyOffset := entry.key.offset.toNat
      keyLength := entry.key.length.toNat
      valueOffset := entry.value.offset
      valueLength := entry.value.length.toNat }

/-- The key and the value of the entry at `index`; `info` is that of the tree.  An entry without a
    value has an empty one. -/
def entry (n : Node) (index : Nat) (info : TreeInfo) : Except Error Entry := do
  if n.size ≤ index then throw (.argument .entryIndex)
  let table ← n.table
  let valueEnd ← n.valueEnd
  let places ← n.places table index info
  let key ← n.span (n.keyStart + places.keyOffset) places.keyLength .keyBounds
  if places.valueOffset = noValueOffset then return ⟨key, .empty⟩
  let offset := places.valueOffset.toNat
  if valueEnd < offset then throw (.node .valueOffset)
  return ⟨key, ← n.span (valueEnd - offset) places.valueLength .valueBounds⟩

/-! ### Search -/

/-- Searches the entries from `low` up to `high`.  `found` is the last entry seen that compares
    less. -/
def floorBetween (n : Node) (info : TreeInfo) (order : KeyOrder) (low high : Nat)
    (found : Option (Nat × Ordering)) : Except Error (Option (Nat × Ordering)) := do
  if low < high then
    let middle := low + (high - low) / 2
    match ← order (← n.entry middle info).key with
    | .gt => n.floorBetween info order low middle found
    | .eq => return some (middle, .eq)
    | .lt => n.floorBetween info order (middle + 1) high (some (middle, .lt))
  else return found
termination_by high - low

/-- The index of the last entry that does not compare greater, and how it compares.  Keys are
    expected to be sorted, so this is a binary search; it stops at an entry that compares equal. -/
def floor (n : Node) (info : TreeInfo) (order : KeyOrder) :
    Except Error (Option (Nat × Ordering)) :=
  n.floorBetween info order 0 n.size none

end Node

end Apfs
