import Apfs.Block.Cache
import Apfs.Block.Device
import Apfs.Directory.Lookup
import Apfs.ObjectMap.Resolver

namespace Apfs

/-!
# Settings

How a container is read: the size of its blocks, which caches are kept, and how names compare.
Caches make no difference to what is read.

* `Settings` — the settings, with defaults; `Settings.validate` refuses unusable ones.
* `Settings.device` — the blocks of an image.
* `Settings.cached`, `Settings.resolver`, `Settings.lookupEntry` — readers, resolvers and
  directory lookups as the settings say.
-/

/-- How a container is read. -/
structure Settings where
  /-- The number of bytes of a block. -/
  blockSize : Nat := 4096
  /-- Whether blocks are kept once they are read. -/
  keepsBlocks : Bool := true
  /-- How many blocks are kept, if there is a limit. -/
  blockCapacity : Option Nat := some 4096
  /-- Whether mappings of virtual objects are remembered. -/
  keepsAddresses : Bool := true
  /-- Whether case makes a difference in the names of directory entries. -/
  sensitivity : CaseSensitivity := .sensitive
deriving DecidableEq

namespace Settings

/-- The block sizes that containers have: the powers of two from 4096 to 65536. -/
def blockSizes : List Nat := (List.range 5).map fun i => 4096 <<< i

/-- Fails if the block size is none that containers have. -/
def validate (s : Settings) : Except Error Unit :=
  if s.blockSize ∈ blockSizes then .ok () else .error (.argument .blockSizeRange)

/-- The blocks of an image from position `start` on. -/
def device (s : Settings) (image : ByteArray) (start : UInt64) : Except Error Device := do
  s.validate
  Device.ofImage image start s.blockSize

variable {σ : Type}

/-- The reader with the block cache that the settings ask for.  If no blocks are to be kept, the
    cache has no room for any. -/
def cached (s : Settings) (reader : BlockReader σ) : BlockReader (σ × BlockCache) :=
  reader.cached (if s.keepsBlocks then s.blockCapacity else some 0)

/-- A resolver for the object map at a block. -/
def resolver (s : Settings) (reader : BlockReader σ) (address : BlockAddress) :
    EStateM Error σ Resolver :=
  Resolver.ofAddress reader address s.keepsAddresses

/-- Finds a directory entry. -/
def lookupEntry (s : Settings) (t : Tree) (reader : BlockReader σ) (lookup : ObjectLookup σ)
    (format : EntryFormat) (parent : UInt64) (name : EncodedName) :
    EStateM Error σ (Option (DirectoryKey × ByteArray)) :=
  t.lookupEntry reader lookup format s.sensitivity parent name

end Settings

end Apfs
