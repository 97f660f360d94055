import Apfs.Checked
import Apfs.Tree.Basic

namespace Apfs

/-!
# Reading nodes with checked steps

The numbers in a node lead to other places in it.  They may be any numbers, and so may be the sizes
that the information about a tree gives, which stands in another block.  Here a node is read with
each sum, product and range checked.

* `Node.Checked.ofBlock`, `Tree.Checked.ofBlock` — accept a block.
* `Node.Checked.info` — the information about the tree at the end of a root node.
* `Node.Checked.entry` — the key and the value of an entry.
-/

namespace Node.Checked

/-- The bytes of a range of the node, if it lies in the node. -/
def span (n : Node) (start length : Nat) (fault : NodeFault) : Except Stop ByteArray := do
  let stop ← plus start length
  if start ≤ stop ∧ stop ≤ n.data.size then cut n.data start stop else fail (.node fault)

/-- The offset of the table of contents. -/
def tableStart (n : Node) : Except Stop Nat :=
  plus (Layout.size NodeHeader) n.header.table.offset.toNat

/-- The table of contents, if it lies in the node and is large enough for all entries. -/
def table (n : Node) : Except Stop ByteArray := do
  let table ← span n (← tableStart n) n.header.table.length.toNat .tableBounds
  if table.size < (← times n.size n.tableEntrySize) then fail (.node .tooManyKeys)
  return table

/-- The offset of the first key. -/
def keyStart (n : Node) : Except Stop Nat := do
  plus (← tableStart n) n.header.table.length.toNat

/-- The offset just past the values. -/
def valueEnd (n : Node) : Except Stop Nat :=
  if n.header.isRoot then
    if n.data.size < Layout.size TreeInfo then fail (.node .rootTooSmall)
    else minus n.data.size (Layout.size TreeInfo)
  else return n.data.size

/-- The information about the tree, if the node is a root. -/
def info (n : Node) : Except Stop (Option TreeInfo) := do
  if n.header.isRoot then
    let start ← valueEnd n
    return some (← attempt (decode (← cut n.data start n.data.size)))
  else return none

/-- Accepts a block as a node. -/
def ofBlock (block : Block) : Except Stop Node := do
  let subtype := (← attempt block.header).subtype.objectType
  let _ ← attempt (block.expectTypes [.treeRoot, .treeNode] subtype)
  let node : Node := ⟨block, ← attempt (decode block.data)⟩
  let _ ← table node
  return node

/-- The line of the table of contents for an entry. -/
def line (α : Type) [Layout α] (table : ByteArray) (index : Nat) : Except Stop α := do
  let start ← times index (Layout.size α)
  attempt (decode (← cut table start table.size))

/-- The places that the table of contents gives for an entry. -/
def places (n : Node) (table : ByteArray) (index : Nat) (info : TreeInfo) :
    Except Stop Places := do
  if n.header.isFixedSize then
    let entry ← line KeyValueOffset table index
    let parameters := info.parameters
    return {
      keyOffset := entry.key.toNat
      keyLength := parameters.keySize.toNat
      valueOffset := entry.value
      valueLength := if n.header.isLeaf then parameters.valueSize.toNat else childValueSize }
  else
    let entry ← line KeyValueLocation table index
    return {
      keyOffset := entry.key.offset.toNat
      keyLength := entry.key.length.toNat
      valueOffset := entry.value.offset
      valueLength := entry.value.length.toNat }

/-- The key and the value of the entry at `index`; `info` is that of the tree. -/
def entry (n : Node) (index : Nat) (info : TreeInfo) : Except Stop Entry := do
  if n.size ≤ index then fail (.argument .entryIndex)
  let table ← table n
  let keyStart ← keyStart n
  let valueEnd ← valueEnd n
  let places ← places n table index info
  let key ← span n (← plus keyStart places.keyOffset) places.keyLength .keyBounds
  if places.valueOffset = noValueOffset then return ⟨key, .empty⟩
  let offset := places.valueOffset.toNat
  if valueEnd < offset then fail (.node .valueOffset)
  return ⟨key, ← span n (← minus valueEnd offset) places.valueLength .valueBounds⟩

end Node.Checked

/-- Accepts a block as the root of a tree. -/
def Tree.Checked.ofBlock (block : Block) : Except Stop Tree := do
  let root ← Node.Checked.ofBlock block
  if root.header.object.type.objectType ≠ .treeRoot then fail .notRoot
  match ← Node.Checked.info root with
  | some info => return ⟨root, info⟩
  | none => fail .notRoot

end Apfs
