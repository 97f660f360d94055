import Apfs.Layout

namespace Apfs

/-!
# Object types

The type word of an object holds the type in its low half and flags, among them the storage
class, in its high half.

* `ObjectType` — the types, with names for those that are known.
* `ObjectFlags` — the flags; `ObjectFlags.storage` is the storage class they stand for.
* `TypeWord` — the word; `TypeWord.ofParts` packs one.
-/

/-! ### Types -/

/-- The type, or the subtype, of an object. -/
structure ObjectType where
  /-- The number on disk. -/
  code : UInt32
deriving DecidableEq, Inhabited

namespace ObjectType

/-- A B-tree's root node. -/
def treeRoot : ObjectType := ⟨2⟩

/-- A B-tree's node other than the root. -/
def treeNode : ObjectType := ⟨3⟩

/-- A block of the space manager that describes chunks. -/
def chunkInfoBlock : ObjectType := ⟨7⟩

/-- An object map; as a subtype, the tree of one. -/
def objectMap : ObjectType := ⟨11⟩

/-- The names of the known types. -/
def names : List (UInt32 × String) :=
  [(0, "Invalid"), (1, "ContainerSuperblock"), (2, "BTreeRoot"), (3, "BTreeNode"),
    (5, "SpaceManagerHeader"), (6, "SpaceManagerChunkInformationAddressBlock"),
    (7, "SpaceManagerChunkInformationBlock"), (8, "SpaceManagerBitmap"), (11, "ObjectMap"),
    (12, "CheckpointMap"), (13, "VolumeSuperblock"), (14, "FilesystemTree"),
    (15, "ExtentReferenceTree"), (16, "SnapshotMetadataTree"), (19, "ObjectMapSnapshot"),
    (31, "FileExtentsBTree"), (0xff, "Test")]

/-- The name of the type. -/
def name (t : ObjectType) : String :=
  (names.lookup t.code).getD s!"Unknown({t.code})"

end ObjectType

/-! ### Flags -/

/-- Where an object is stored. -/
inductive StorageClass where
  /-- At the block that its identifier names. -/
  | physical
  /-- In memory; a checkpoint holds a copy. -/
  | ephemeral
  /-- At the block that an object map names. -/
  | virtual
deriving DecidableEq

/-- The name of a storage class. -/
def StorageClass.name : StorageClass → String
  | physical => "Physical"
  | ephemeral => "Ephemeral"
  | virtual => "Virtual"

/-- The flags of an object. -/
structure ObjectFlags where
  /-- The flags, at their places in the type word. -/
  bits : UInt32
deriving DecidableEq, Inhabited

namespace ObjectFlags

/-- No flag. -/
def empty : ObjectFlags := ⟨0⟩

/-- The object is ephemeral. -/
def ephemeral : ObjectFlags := ⟨0x80000000⟩

/-- The object is physical. -/
def physical : ObjectFlags := ⟨0x40000000⟩

/-- The names of the known flags, the highest bit first. -/
def names : List (ObjectFlags × String) :=
  [(ephemeral, "Ephemeral"), (physical, "Physical"), (⟨0x20000000⟩, "NoHeader"),
    (⟨0x10000000⟩, "Encrypted"), (⟨0x08000000⟩, "NonPersistent")]

/-- Whether all flags of `g` are among those of `f`. -/
def contains (f g : ObjectFlags) : Bool := f.bits &&& g.bits = g.bits

/-- The storage class.  An object that is neither ephemeral nor physical is virtual. -/
def storage (f : ObjectFlags) : StorageClass :=
  if f.contains ephemeral then .ephemeral
  else if f.contains physical then .physical
  else .virtual

/-- The names of the flags, and the bits without a name as one number, joined by bars. -/
def text (f : ObjectFlags) : String :=
  let known := names.filter fun (g, _) => f.contains g
  let rest := known.foldl (fun bits (g, _) => bits &&& ~~~g.bits) f.bits
  let parts := known.map Prod.snd
  let number := Text.hexNat rest.toNat
  if rest = 0 ∧ parts ≠ [] then " | ".intercalate parts
  else " | ".intercalate (parts ++ [number])

end ObjectFlags

/-! ### Type words -/

/-- The type word of an object. -/
structure TypeWord where
  /-- The number on disk. -/
  word : UInt32
deriving DecidableEq, Inhabited

instance : Layout TypeWord := .record (.column "0" UInt32) TypeWord.mk TypeWord.word

namespace TypeWord

/-- The bits that hold the type. -/
def typeMask : UInt32 := 0x0000ffff

/-- The bits that hold the flags. -/
def flagsMask : UInt32 := 0xffff0000

/-- The word with the given type and flags. -/
def ofParts (type : ObjectType) (flags : ObjectFlags) : TypeWord :=
  ⟨(type.code &&& typeMask) ||| (flags.bits &&& flagsMask)⟩

/-- The type. -/
def objectType (w : TypeWord) : ObjectType := ⟨w.word &&& typeMask⟩

/-- The flags. -/
def flags (w : TypeWord) : ObjectFlags := ⟨w.word &&& flagsMask⟩

/-- The word as it is shown to people. -/
def text (w : TypeWord) : String :=
  s!"ObjectTypeValue \x7b type: {w.objectType.name}, flags: ObjectTypeFlags({w.flags.text}) \x7d"

end TypeWord

end Apfs
