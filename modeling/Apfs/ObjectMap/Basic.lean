import Apfs.Tree.Search

namespace Apfs

/-!
# Object maps

* `ObjectMap` — an object map: its header and its tree; `ObjectMap.ofBlock` opens one.
* `ObjectMap.latest?` — the newest version of an object that is not newer than a transaction.
* `ObjectMap.walk` — visits all mappings.
-/

/-- An object map. -/
structure ObjectMap where
  /-- The header of the map. -/
  header : ObjectMapHeader
  /-- The tree of mappings. -/
  tree : Tree

namespace ObjectMap

variable {σ : Type}

/-- The type word of an object map's block. -/
def typeWord : TypeWord := .ofParts .objectMap .physical

/-- Opens the object map in a block.  Both the block and the root of its tree have to have good
    checksums and the types of an object map. -/
def ofBlock (reader : BlockReader σ) (block : Block) : EStateM Error σ ObjectMap := do
  lift block.verify
  let _ ← lift (block.expectWords typeWord ⟨0⟩)
  let header : ObjectMapHeader ← lift (decode block.data)
  let root ← reader.readVerified header.tree.toAddress
  let _ ← lift (root.expectTypes [.treeRoot] .objectMap)
  return ⟨header, ← lift (Tree.ofBlock root)⟩

/-- Compares stored keys with `target`. -/
def keyOrder (target : ObjectMapKey) : KeyOrder := fun key => do
  let stored : ObjectMapKey ← decode key
  return compare stored target

/-- The newest mapping of `object` that is not newer than `transaction`, unless there is none or
    it says that the object was deleted.  It is the last mapping not after that pair, if that is a
    mapping of the object at all. -/
def latest? (m : ObjectMap) (reader : BlockReader σ) : ObjectLookup σ :=
  fun object transaction => do
    let order := keyOrder ⟨object, transaction⟩
    match ← m.tree.search reader .empty order .lessOrEqual with
    | none => return none
    | some entry =>
      let key : ObjectMapKey ← lift (decode entry.key)
      -- The last mapping not after the pair may be one of an object with a smaller identifier.
      if key.object ≠ object then return none
      let value : ObjectMapValue ← lift (decode entry.value)
      return if value.isDeleted then none else some (key, value)

/-- Visits all mappings, in the order of their keys. -/
def walk (m : ObjectMap) (reader : BlockReader σ)
    (visit : ObjectMapKey → ObjectMapValue → EStateM Error σ Unit) : EStateM Error σ Unit :=
  m.tree.walk reader .empty fun entry => do
    let key ← lift (decode entry.key)
    let value ← lift (decode entry.value)
    visit key value

end ObjectMap

end Apfs
