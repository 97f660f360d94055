import Apfs.Compression.BitReader
import Apfs.Checked

namespace Apfs

/-!
# Bit reader with a buffer of one word

The bits that are read ahead are kept in a word of 64 bits, which is shifted and masked.  Bytes that
were read ahead are given back where whole bytes are asked for.

* `WordReader` — the cursor; `WordReading` — steps with it.
* `WordReader.take` — the next bits as a number.
* `WordReader.skipToByte`, `WordReader.takeBytes` — alignment, and whole bytes after it.
* `BitRequest` — the requests that a reader serves.
-/

/-- A cursor over the bits of a byte string, with a word as its buffer. -/
structure WordReader where
  /-- The bytes that are read. -/
  data : ByteArray
  /-- The order of bits inside a byte. -/
  order : BitOrder
  /-- The offset of the next byte to pull into the buffer. -/
  next : Nat := 0
  /-- The bits pulled from the data and not yet read. -/
  buffer : UInt64 := 0
  /-- The number of bits in the buffer. -/
  buffered : Nat := 0

/-- A checked step that reads bits. -/
abbrev WordReading := EStateM Stop WordReader

namespace WordReader

/-- A cursor at the first bit of `data`. -/
def ofBytes (data : ByteArray) (order : BitOrder) : WordReader := { data, order }

/-- The number of bits not yet read. -/
def remaining (r : WordReader) : Nat := r.buffered + 8 * (r.data.size - r.next)

/-- The number of bits read. -/
def cursor (r : WordReader) : Nat := 8 * r.next - r.buffered

/-! ### The buffer -/

/-- The word whose lowest `n` bits are set. -/
def mask (n : Nat) : UInt64 := (1 <<< n.toUInt64) - 1

/-- The cursor with the next byte, `b`, in the buffer. -/
def pull (r : WordReader) (b : UInt8) : WordReader :=
  { r with
    next := r.next + 1
    buffered := r.buffered + 8
    buffer := match r.order with
      | .lowFirst => r.buffer ||| b.toUInt64 <<< r.buffered.toUInt64
      | .highFirst => r.buffer <<< 8 ||| b.toUInt64 }

/-- Pulls bytes until there are `n` bits in the buffer. -/
def refill (n : Nat) (r : WordReader) : EStateM.Result Stop WordReader Unit :=
  if r.buffered < n then
    if h : r.next < r.data.size then refill n (r.pull r.data[r.next])
    else .error (.breach .outOfRange) r
  else .ok () r
termination_by n - r.buffered
decreasing_by simp only [pull]; omega

/-- The first `n` bits of the buffer, and the cursor after them. -/
def split (n : Nat) (r : WordReader) : UInt32 × WordReader :=
  let rest := r.buffered - n
  match r.order with
  | .lowFirst =>
    ((r.buffer &&& mask n).toUInt32,
      { r with buffered := rest, buffer := r.buffer >>> n.toUInt64 })
  | .highFirst =>
    (((r.buffer >>> rest.toUInt64) &&& mask n).toUInt32,
      { r with buffered := rest, buffer := r.buffer &&& mask rest })

/-! ### Reading -/

/-- The next `n` bits as a number.  At most 32 bits are read at a time, and nothing is consumed
    unless all of them are there. -/
def take (n : Nat) : WordReading UInt32 := do
  if 32 < n then fail (.argument .bitCount)
  else if n = 0 then return 0
  else
    let r ← get
    expect (r.next ≤ r.data.size) .outOfRange
    if r.remaining < n then fail (.bitsExhausted n r.remaining)
    else
      refill n
      expect (n ≤ (← get).buffered) .outOfRange
      modifyGet (split n)

/-- The cursor at the next byte boundary. -/
def skipToByte (r : WordReader) : WordReader :=
  let part := r.buffered % 8
  if part = 0 then r
  else
    let rest := r.buffered - part
    { r with
      buffered := rest
      buffer := match r.order with
        | .lowFirst => r.buffer >>> part.toUInt64
        | .highFirst => r.buffer &&& mask rest }

/-- The cursor with the whole bytes of its buffer given back. -/
def giveBack (r : WordReader) : WordReader :=
  { r with next := r.next - r.buffered / 8, buffer := 0, buffered := 0 }

/-- The `n` bytes after the next byte boundary.  If they are not there the cursor stays at the
    boundary. -/
def takeBytes (n : Nat) : WordReading ByteArray := do
  modify skipToByte
  let r ← get
  expect (r.buffered / 8 ≤ r.next ∧ r.next ≤ r.data.size) .outOfRange
  let r := r.giveBack
  match Bytes.slice? r.data r.next n with
  | some bytes =>
    set { r with next := r.next + n }
    return bytes
  | none =>
    set r
    fail (.bitsExhausted (min (8 * n) BitReader.requestLimit) r.remaining)

end WordReader

/-! ### Requests -/

/-- What a reader is asked for. -/
inductive BitRequest where
  /-- Some bits as a number. -/
  | take (n : Nat)
  /-- That the next byte boundary be reached. -/
  | skipToByte
  /-- Some bytes after the next byte boundary. -/
  | takeBytes (n : Nat)

/-- The reader after a request, which may have failed. -/
def BitRequest.after (r : WordReader) : BitRequest → WordReader
  | take n => match r.take n with | .ok _ r | .error _ r => r
  | skipToByte => r.skipToByte
  | takeBytes n => match r.takeBytes n with | .ok _ r | .error _ r => r

end Apfs
