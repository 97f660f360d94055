import Apfs.Block.Stream

namespace Apfs

/-!
# Chunk information

The space manager keeps track of free blocks in chunks.  A chunk information block holds a header
and, right after it, as many entries as the header says.

* `ChunkInfo`, `ChunkInfoHeader` — an entry and the header.
* `ChunkInfoBlock` — a block taken apart; `ChunkInfoBlock.ofBlock` accepts a block.
* `ChunkInfoBlock.readAt` — reads one at a position of a byte stream.
-/

/-- Describes a chunk of blocks. -/
structure ChunkInfo where
  /-- The transaction that last changed the chunk. -/
  transaction : TransactionId
  /-- The first block of the chunk. -/
  address : BlockAddress
  /-- The number of blocks. -/
  blockCount : UInt32
  /-- The number of free blocks. -/
  freeCount : UInt32
  /-- The block with the bitmap of the chunk, or 0 if there is none. -/
  bitmap : BlockAddress
deriving DecidableEq, Inhabited

instance : Layout ChunkInfo :=
  .record
    (.andColumn "transaction_id" TransactionId <|
      .andColumn "address" BlockAddress <|
      .andColumn "block_count" UInt32 <|
      .andColumn "free_count" UInt32 <|
      .column "bitmap_address" BlockAddress)
    (fun (transaction, address, blockCount, freeCount, bitmap) =>
      { transaction, address, blockCount, freeCount, bitmap })
    (fun c => (c.transaction, c.address, c.blockCount, c.freeCount, c.bitmap))

/-- The header of a chunk information block. -/
structure ChunkInfoHeader where
  /-- The header of the object that the block is. -/
  object : ObjectHeader
  /-- The place of the block among all chunk information blocks. -/
  index : UInt32
  /-- The number of entries. -/
  count : UInt32
deriving DecidableEq, Inhabited

instance : Layout ChunkInfoHeader :=
  .record
    (.andColumn "object" ObjectHeader <|
      .andColumn "index" UInt32 <|
      .column "chunk_info_count" UInt32)
    (fun (object, index, count) => { object, index, count })
    (fun h => (h.object, h.index, h.count))

/-- A chunk information block. -/
structure ChunkInfoBlock where
  /-- The header of the block. -/
  header : ChunkInfoHeader
  /-- The entries. -/
  entries : List ChunkInfo

namespace ChunkInfoBlock

/-- The type word of the blocks. -/
def typeWord : TypeWord := .ofParts .chunkInfoBlock .physical

/-- The number of bytes that the header and some entries take. -/
def neededSize (count : Nat) : Nat :=
  Layout.size ChunkInfoHeader + count * Layout.size ChunkInfo

/-- Accepts a block whose checksum and types are good and which holds all its entries.  The entries
    are the first whole pieces behind the header. -/
def ofBlock (block : Block) : Except Error ChunkInfoBlock := do
  block.verify
  let _ ← block.expectWords typeWord ⟨0⟩
  let header : ChunkInfoHeader ← decode block.data
  let count := header.count.toNat
  if block.data.size < neededSize count then
    throw (.inputTooSmall (neededSize count) block.data.size)
  let rest := block.data.extract (Layout.size ChunkInfoHeader) block.data.size
  let pieces := (Bytes.wholePieces rest (Layout.size ChunkInfo)).take count
  let entries ← pieces.mapM decode
  return { header, entries }

/-- The number of bytes of a block that is read from a stream. -/
def blockSize : Nat := 4096

/-- Reads the block at a position of a stream. -/
def readAt (position : UInt64) : EStateM Error ByteStream ChunkInfoBlock := do
  ByteStream.seek position
  let data ← ByteStream.readExact blockSize
  lift (ofBlock ⟨⟨position / UInt64.ofNat blockSize⟩, data⟩)

end ChunkInfoBlock

end Apfs
