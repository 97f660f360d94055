import Apfs.Block.Basic

namespace Apfs

/-!
# Block readers

A block reader delivers the bytes of any block.  It may keep a state of its own, such as a cache,
which is threaded through the readings; a failing reading may change the state too.

* `BlockReader` — reads blocks, with a state of type `σ`.
* `BlockReader.readBlock` — a block; `BlockReader.readVerified` — one whose checksum is verified.
* `BlockReader.readInto` — reads a block into a buffer of the caller.
* `BlockReader.counted` — a reader that counts the blocks it delivers.
* `BlockReader.extend` — a reader beside which another state is kept.
-/

variable {σ τ α : Type}

/-- A step on the first part of a pair of states. -/
def onFirst (x : EStateM Error σ α) : EStateM Error (σ × τ) α := fun (s, t) =>
  match x s with
  | .ok a s => .ok a (s, t)
  | .error e s => .error e (s, t)

/-- A pure computation as a step. -/
def lift (x : Except Error α) : EStateM Error σ α := fun s =>
  match x with
  | .ok a => .ok a s
  | .error e => .error e s

/-- Reads blocks, with a state of type `σ`. -/
structure BlockReader (σ : Type) where
  /-- The number of bytes of every block. -/
  blockSize : Nat
  /-- Reads the bytes of a block. -/
  read : BlockAddress → EStateM Error σ ByteArray

namespace BlockReader

/-- Reads a block. -/
def readBlock (reader : BlockReader σ) (address : BlockAddress) : EStateM Error σ Block := do
  return ⟨address, ← reader.read address⟩

/-- Reads a block and verifies the checksum of the object in it. -/
def readVerified (reader : BlockReader σ) (address : BlockAddress) : EStateM Error σ Block := do
  let block ← reader.readBlock address
  lift block.verify
  return block

/-- Reads a block into the buffer that the second part of the state is, whatever it held before.
    A failing reading leaves the buffer alone. -/
def readInto (reader : BlockReader σ) (address : BlockAddress) :
    EStateM Error (σ × ByteArray) Unit := do
  let data ← onFirst (reader.read address)
  modify fun (s, _) => (s, data)

/-- The reader, with another state beside its own that it leaves alone. -/
def extend (reader : BlockReader σ) (τ : Type) : BlockReader (σ × τ) where
  blockSize := reader.blockSize
  read address := onFirst (reader.read address)

/-- The reader, with the number of blocks it delivered beside its state. -/
def counted (reader : BlockReader σ) : BlockReader (σ × Nat) where
  blockSize := reader.blockSize
  read address := do
    let data ← onFirst (reader.read address)
    modify fun (s, count) => (s, count + 1)
    return data

end BlockReader

end Apfs
