import Apfs.Object.Header

namespace Apfs

/-!
# Blocks

* `Block` — the bytes of a block and its address.
* `Block.header` — the header of the object in a block.
* `Block.expectWords`, `Block.expectTypes` — the header, if it has the wanted types.
-/

/-- A block and the bytes it holds. -/
structure Block where
  /-- The address of the block. -/
  address : BlockAddress
  /-- The bytes of the block. -/
  data : ByteArray

namespace Block

/-- The checksum of the object in the block. -/
def checksum (b : Block) : Except Error UInt64 := computedChecksum b.data

/-- Fails unless the object in the block holds its own checksum. -/
def verify (b : Block) : Except Error Unit := verifyChecksum b.data

/-- The header of the object in the block. -/
def header (b : Block) : Except Error ObjectHeader := decode b.data

/-- The header, if its type word and subtype word are exactly the given ones. -/
def expectWords (b : Block) (type subtype : TypeWord) : Except Error ObjectHeader := do
  let header ← b.header
  if header.type ≠ type then throw (.objectType type.word header.type.word)
  if header.subtype ≠ subtype then throw (.objectSubtype subtype.word header.subtype.word)
  return header

/-- The header, if its type is one of those allowed and its subtype the given one, whatever the
    flags.  The error for a wrong type names the first that is allowed. -/
def expectTypes (b : Block) (allowed : List ObjectType) (subtype : ObjectType) :
    Except Error ObjectHeader := do
  let header ← b.header
  if header.type.objectType ∉ allowed then
    throw (.objectType ((allowed.head?.map ObjectType.code).getD 0) header.type.word)
  if header.subtype.objectType ≠ subtype then
    throw (.objectSubtype subtype.code header.subtype.word)
  return header

/-- The block as it is shown to people. -/
def text (b : Block) : String :=
  s!"Block \x7b number: PhysicalAddressRaw({b.address.value}), length: {b.data.size} \x7d"

end Block

end Apfs
