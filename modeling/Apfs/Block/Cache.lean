import Apfs.Block.Reader
import Std.Data.HashMap

namespace Apfs

/-!
# Block caches

Blocks of a container never change once they are written, so what was read once need not be read
again.  A cache with a capacity drops the blocks that were read in longest ago; one of capacity 0
keeps nothing.

* `BlockCache` — the blocks kept, and the order in which they came.
* `BlockCache.insert` — keeps a block, and drops others until the capacity is respected.
* `BlockReader.cached` — a reader that asks another one only for blocks that are not kept.
-/

/-- The blocks kept by a cache. -/
structure BlockCache where
  /-- The bytes of the blocks that are kept. -/
  blocks : Std.HashMap BlockAddress ByteArray
  /-- The addresses of the blocks, the one that came first in front. -/
  order : List BlockAddress

namespace BlockCache

/-- A cache that holds nothing. -/
def empty : BlockCache := ⟨∅, []⟩

/-- The number of blocks kept. -/
def size (c : BlockCache) : Nat := c.blocks.size

/-- Drops blocks in the order in which they came, until at most `capacity` are left. -/
def evict (capacity : Nat) (blocks : Std.HashMap BlockAddress ByteArray) :
    (order : List BlockAddress) → BlockCache
  | [] => ⟨blocks, []⟩
  | oldest :: order =>
    if blocks.size ≤ capacity then ⟨blocks, oldest :: order⟩
    else evict capacity (blocks.erase oldest) order

/-- Keeps a block.  With a capacity, other blocks may have to go. -/
def insert (c : BlockCache) (capacity : Option Nat) (address : BlockAddress)
    (data : ByteArray) : BlockCache :=
  let blocks := c.blocks.insert address data
  let order := if c.blocks.contains address then c.order else c.order ++ [address]
  match capacity with
  -- Without room for a single block nothing changes, not even for a moment.
  | some 0 => c
  | some n => evict n blocks order
  | none => ⟨blocks, order⟩

end BlockCache

variable {σ : Type}

/-- The reader, with a cache beside its state.  No capacity means no limit. -/
def BlockReader.cached (reader : BlockReader σ) (capacity : Option Nat) :
    BlockReader (σ × BlockCache) where
  blockSize := reader.blockSize
  read address := do
    let (_, cache) ← get
    match cache.blocks[address]? with
    | some data => return data
    | none =>
      let data ← onFirst (reader.read address)
      modify fun (s, cache) => (s, cache.insert capacity address data)
      return data

end Apfs
