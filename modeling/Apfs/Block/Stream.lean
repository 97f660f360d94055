import Apfs.Block.Reader

namespace Apfs

/-!
# Byte streams

A byte source is read from a position on, and each reading moves the position.  The blocks of a
source start at the position at which it is when they are opened; to read a block, the stream is
moved to its start.  A partial block at the end does not count.

* `ByteStream` — the bytes of a source, and a position.
* `ByteStream.seek`, `ByteStream.seekEnd`, `ByteStream.readExact` — moving and reading.
* `StreamReader` — the blocks of a stream; `StreamReader.ofStream` finds out how many there are.
* `StreamReader.readInto` — reads a block into a buffer; `StreamReader.read` — into a new one.
* `StreamReader.blocks` — the reader as one that keeps the stream as its state.
-/

/-! ### Streams -/

/-- A byte source that is held in memory, at a position. -/
structure ByteStream where
  /-- The bytes of the source. -/
  contents : ByteArray
  /-- The position of the next byte, possibly past the end. -/
  position : UInt64

namespace ByteStream

/-- The position just past the last byte. -/
def stop (s : ByteStream) : UInt64 := UInt64.ofNat s.contents.size

/-- Moves to a position. -/
def seek (position : UInt64) : EStateM Error ByteStream Unit :=
  modify fun s => { s with position }

/-- Moves to the end, and gives its position. -/
def seekEnd : EStateM Error ByteStream UInt64 := do
  modify fun s => { s with position := s.stop }
  return (← get).position

/-- Reads exactly `count` bytes.  If there are fewer, this fails, and the stream is at its end. -/
def readExact (count : Nat) : EStateM Error ByteStream ByteArray := fun s =>
  match Bytes.slice? s.contents (min s.position.toNat s.contents.size) count with
  | some data => .ok data { s with position := s.position + UInt64.ofNat count }
  | none => .error .shortRead { s with position := s.stop }

/-- Fills the buffer beside the stream with the next bytes. -/
def fill : EStateM Error (ByteStream × ByteArray) Unit := do
  let (_, buffer) ← get
  let data ← onFirst (readExact buffer.size)
  modify fun (s, _) => (s, data)

end ByteStream

/-! ### Blocks -/

/-- The blocks of a byte stream. -/
structure StreamReader where
  /-- The position in the stream at which block 0 starts. -/
  start : UInt64
  /-- The number of bytes of every block. -/
  blockSize : Nat
  /-- The number of whole blocks. -/
  blockCount : UInt64
deriving DecidableEq

namespace StreamReader

/-- The blocks of a stream from its position on. -/
def ofStream (blockSize : Nat) : EStateM Error ByteStream StreamReader := do
  if blockSize = 0 then throw (.argument .zeroBlockSize)
  let start := (← get).position
  let stop ← ByteStream.seekEnd
  ByteStream.seek start
  -- A stream may be opened past its end.
  let available := if start ≤ stop then stop - start else 0
  return { start, blockSize, blockCount := UInt64.ofNat (available.toNat / blockSize) }

/-- The position in the stream of a block, as a 64-bit number. -/
def position (r : StreamReader) (address : BlockAddress) : UInt64 :=
  r.start + address.value * UInt64.ofNat r.blockSize

/-- Reads a block into the buffer beside the stream.  The buffer gets the size of a block, unless
    there is no such block. -/
def readInto (r : StreamReader) (address : BlockAddress) :
    EStateM Error (ByteStream × ByteArray) Unit := do
  if r.blockCount ≤ address.value then throw (.blockOutOfBounds address)
  modify fun (s, buffer) => (s, Bytes.resize buffer r.blockSize)
  onFirst (ByteStream.seek (r.position address))
  ByteStream.fill

/-- Reads a block into a new buffer. -/
def read (r : StreamReader) (address : BlockAddress) : EStateM Error ByteStream ByteArray :=
  fun s =>
    match r.readInto address (s, Bytes.zeros r.blockSize) with
    | .ok _ (s, buffer) => .ok buffer s
    | .error e (s, _) => .error e s

/-- Reads blocks, with the stream as its state. -/
def blocks (r : StreamReader) : BlockReader ByteStream where
  blockSize := r.blockSize
  read := r.read

end StreamReader

end Apfs
