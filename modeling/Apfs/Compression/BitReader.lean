import Apfs.Bytes
import Apfs.Error

namespace Apfs

/-!
# Bit reader

A cursor over the bits of a byte string.  Bytes are pulled into a buffer only as far as a request
needs, so between requests fewer than eight bits are buffered.

* `BitOrder` — which end of a byte its first bit is.
* `BitReader` — the cursor; `BitReader.ofBytes` starts at the first bit.
* `BitReading` — reading steps: they may fail, and what was consumed before stays consumed.
* `BitReader.take` — the next bits as a number.
* `BitReader.skipToByte`, `BitReader.takeBytes` — alignment, and whole bytes after it.
-/

/-- The order of bits inside a byte, and of the bits of a number inside the stream. -/
inductive BitOrder where
  /-- The least significant bit comes first, as in deflate. -/
  | lowFirst
  /-- The most significant bit comes first. -/
  | highFirst
deriving DecidableEq

/-- A cursor over the bits of a byte string. -/
structure BitReader where
  /-- The bytes that are read. -/
  data : ByteArray
  /-- The order of bits inside a byte. -/
  order : BitOrder
  /-- The offset of the next byte to pull into the buffer. -/
  next : Nat := 0
  /-- The bits pulled from the data and not yet read, as a number in the order of the stream. -/
  buffer : Nat := 0
  /-- The number of bits in the buffer. -/
  buffered : Nat := 0

/-- A step that reads bits. -/
abbrev BitReading := EStateM Error BitReader

namespace BitReader

/-- A cursor at the first bit of `data`. -/
def ofBytes (data : ByteArray) (order : BitOrder) : BitReader := { data, order }

/-- The number of bits not yet read. -/
def remaining (r : BitReader) : Nat :=
  r.buffered + 8 * (r.data.size - r.next)

/-! ### The buffer -/

/-- The cursor with the next byte, `b`, in the buffer.  It comes after the bits that are there. -/
def pull (r : BitReader) (b : UInt8) : BitReader :=
  { r with
    next := r.next + 1
    buffered := r.buffered + 8
    buffer := match r.order with
      | .lowFirst => r.buffer + b.toNat <<< r.buffered
      | .highFirst => r.buffer <<< 8 + b.toNat }

/-- The cursor with at least `n` bits in the buffer, or with all that remain. -/
def refill (r : BitReader) (n : Nat) : BitReader :=
  if h : r.buffered < n ∧ r.next < r.data.size then
    (r.pull r.data[r.next]).refill n
  else r
termination_by r.data.size - r.next
decreasing_by simp only [pull]; omega

/-- The first `n` bits of the buffer as a number, and the cursor after them. -/
def split (r : BitReader) (n : Nat) : Nat × BitReader :=
  let rest := r.buffered - n
  match r.order with
  | .lowFirst => (r.buffer % (1 <<< n), { r with buffered := rest, buffer := r.buffer >>> n })
  | .highFirst =>
    (r.buffer >>> rest, { r with buffered := rest, buffer := r.buffer % (1 <<< rest) })

/-! ### Reading -/

/-- The next `n` bits as a number.  At most 32 bits are read at a time, and nothing is consumed
    unless all of them are there. -/
def take (n : Nat) : BitReading Nat := fun r =>
  if 32 < n then .error (.argument .bitCount) r
  else if r.remaining < n then .error (.bitsExhausted n r.remaining) r
  else
    let (value, r) := (r.refill n).split n
    .ok value r

/-- The cursor at the next byte boundary, where the buffer is empty. -/
def skipToByte (r : BitReader) : BitReader :=
  { r with buffer := 0, buffered := 0 }

/-- The largest number of bits that an error reports as requested. -/
def requestLimit : Nat := 0xffffffffffffffff

/-- The `n` bytes after the next byte boundary.  If they are not there the cursor stays at the
    boundary. -/
def takeBytes (n : Nat) : BitReading ByteArray := fun r =>
  let r := r.skipToByte
  match Bytes.slice? r.data r.next n with
  | some bytes => .ok bytes { r with next := r.next + n }
  | none => .error (.bitsExhausted (min (8 * n) requestLimit) r.remaining) r

/-! ### What is consumed -/

theorem remaining_refill (r : BitReader) (n : Nat) : (r.refill n).remaining = r.remaining := by
  fun_induction refill r n with
  | case1 r h ih => rw [ih]; simp only [remaining, pull]; omega
  | case2 => rfl

theorem le_buffered_refill {r : BitReader} {n : Nat} (h : n ≤ r.remaining) :
    n ≤ (r.refill n).buffered := by
  fun_induction refill r n with
  | case1 r hr ih => exact ih (by simp only [remaining, pull] at h ⊢; omega)
  | case2 r hr => simp only [remaining] at h; omega

/-- Reading `n` bits consumes `n` bits. -/
theorem remaining_take {n v : Nat} {r r' : BitReader} (h : take n r = .ok v r') :
    r'.remaining + n = r.remaining := by
  have hr := remaining_refill r n
  have hb := le_buffered_refill (r := r) (n := n)
  simp only [take] at h
  split at h
  · contradiction
  split at h
  · contradiction
  next hn =>
    injection h with hv hr'
    subst hr'
    simp only [split, remaining] at hr hb hn ⊢
    split <;> simp only <;> omega

/-- Reading bytes never gives back bits. -/
theorem remaining_takeBytes_le {n : Nat} {bytes : ByteArray} {r r' : BitReader}
    (h : takeBytes n r = .ok bytes r') : r'.remaining ≤ r.remaining := by
  simp only [takeBytes] at h
  split at h
  · injection h with hb hr'
    subst hr'
    simp only [remaining, skipToByte]; omega
  · contradiction

end BitReader

end Apfs
