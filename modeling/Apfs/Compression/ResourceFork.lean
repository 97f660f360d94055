import Apfs.Bytes
import Apfs.Error

namespace Apfs

/-!
# Chunks in a resource fork

Large files keep their data in the resource fork, in chunks that decode to 65536 bytes each, the
last one to what is left.  A table says where the chunks are.

* `ResourceFork.locatedChunks` — chunks anywhere in the fork, each with its offset and size.
* `ResourceFork.adjacentChunks` — chunks one after the other, each starting where the one before
  it ends.
-/

namespace ResourceFork

/-- The size of the header before the data of a fork with located chunks. -/
def headerSize : Nat := 16

/-- The number that the four bytes at `offset` stand for, by `number`. -/
def word (number : List UInt8 → Nat) (fault : CompressionFault) (fork : ByteArray)
    (offset : Nat) : Except Error Nat :=
  match Bytes.slice? fork offset 4 with
  | some bytes => .ok (number bytes.toList)
  | none => .error (.compression fault)

/-- The number at `offset` of a table, least significant byte first. -/
def tableWord : ByteArray → Nat → Except Error Nat :=
  word Bytes.ofLittleEndian .chunkTable

/-- The bytes of a chunk. -/
def chunk (fork : ByteArray) (start size : Nat) : Except Error ByteArray :=
  match Bytes.slice? fork start size with
  | some bytes => .ok bytes
  | none => .error (.compression .chunkBounds)

/-- What was found, and then the results of `f` at `index` and the numbers after it, `count` of them,
    or the first error. -/
def collectFrom {α : Type} (f : Nat → Except Error α) :
    (count index : Nat) → (found : Array α) → Except Error (Array α)
  | 0, _, found => .ok found
  | count + 1, index, found => do collectFrom f count (index + 1) (found.push (← f index))

/-- The results of `f` at `0`, …, `count - 1`, or the first error. -/
def collect {α : Type} (count : Nat) (f : Nat → Except Error α) : Except Error (Array α) :=
  collectFrom f count 0 #[]

/-- The chunks of a fork with located chunks.  The first word is the offset of the data, which
    starts with its own length; then comes the number of chunks, then an offset and a size for
    each.  Offsets count from the number of chunks. -/
def locatedChunks (fork : ByteArray) : Except Error (Array ByteArray) := do
  if fork.size < headerSize then throw (.compression .forkTooSmall)
  let table := (← word Bytes.ofBigEndian .resourceHeader fork 0) + 4
  let count ← tableWord fork table
  collect count fun i => do
    let entry := table + 4 + 8 * i
    let offset ← tableWord fork entry
    let size ← tableWord fork (entry + 4)
    chunk fork (table + offset) size

/-- The chunks of a fork with adjacent chunks.  The fork starts with the offset of each chunk and
    the end of the last one, so the first offset is the size of the table. -/
def adjacentChunks (fork : ByteArray) : Except Error (Array ByteArray) := do
  let tableSize ← tableWord fork 0
  if tableSize < 8 ∨ tableSize % 4 ≠ 0 then throw (.compression .chunkTableSize)
  let offsets ← collect (tableSize / 4) fun i => tableWord fork (4 * i)
  (offsets.zip (offsets.extract 1 offsets.size)).mapM fun (start, stop) =>
    if stop < start then throw (.compression .chunkOrder) else chunk fork start (stop - start)

end ResourceFork

end Apfs
