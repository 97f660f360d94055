import Apfs.Compression.InPlace.Inflate
import Apfs.Compression.Method

namespace Apfs

/-!
# Decompression in place

One unit of data is decoded into the first bytes of the caller's buffer.  Zlib data is decoded in
that part of the buffer, and LZFSE data in a buffer of its own, from which it is copied.

* `Filling` — a checked step that changes a buffer.
* `LzfseWriter` — a decoder of LZFSE streams that writes into a buffer.
* `Filling.stored`, … — the encodings; `Codec.fill` chooses one.
* `decompressInPlace` — decodes one unit of data.
-/

/-- A checked step that changes a buffer. -/
abbrev Filling := EStateM Stop ByteArray

/-- A decoder of LZFSE streams that writes its output to the start of a buffer.  It gives the number
    of bytes written or the reason why there is no output, and the buffer afterwards, which has as
    many bytes as before. -/
abbrev LzfseWriter := (data buffer : ByteArray) →
  Except String Nat × { after : ByteArray // after.size = buffer.size }

namespace Filling

variable {α : Type}

/-- Writes the first `count` of some bytes to the start of the buffer. -/
def copy (bytes : ByteArray) (count : Nat) : Filling Unit := fun out =>
  if count ≤ out.size ∧ count ≤ bytes.size then
    .ok () (Bytes.overlay out 0 (bytes.extract 0 count))
  else .error (.breach .outOfRange) out

/-- Changes the first `size` bytes of the buffer only. -/
def front (size : Nat) (x : Filling α) : Filling α := fun buffer =>
  if size ≤ buffer.size then
    match x (buffer.extract 0 size) with
    | .ok a out => .ok a (Bytes.overlay buffer 0 out)
    | .error stop out => .error stop (Bytes.overlay buffer 0 out)
  else .error (.breach .outOfRange) buffer

/-! ### Encodings -/

/-- Copies the data, as far as it fits. -/
def stored (data : ByteArray) : Filling Nat := do
  let count := min data.size (← get).size
  copy data count
  return count

/-- Fills the buffer with zeros. -/
def zeros : Filling Nat := fun out => .ok out.size (Bytes.zeros out.size)

/-- Decodes a zlib stream. -/
def zlib (data : ByteArray) : Filling Nat := fun out =>
  match inflateZlibInPlace data out with
  | (.ok written, s) => .ok written s.out.data
  | (.error stop, s) => .error stop s.out.data

/-- Decodes an LZFSE stream into a buffer with one byte more, so that output which only just fits
    is told from output that goes on. -/
def lzfse (writer : LzfseWriter) (data : ByteArray) : Filling Nat := do
  let room := (← get).size
  let (outcome, scratch) := writer data (Bytes.zeros (room + 1))
  match outcome with
  | .error reason => fail (.lzfse reason)
  | .ok written =>
    if room < written then fail (.compression .lzfseSize)
    else
      copy scratch.val written
      return written

/-- LZVN opcodes that decode to `room` bytes, as a single block of an LZFSE stream. -/
def lzvnStream (data : ByteArray) (room : Nat) : ByteArray :=
  let number n : List UInt8 := Bytes.littleEndian 4 n
  let header := Lzfse.lzvnMagic ++ number room ++ number data.size
  ⟨header.toArray⟩ ++ data ++ ⟨Lzfse.endMagic.toArray⟩

/-- Decodes LZVN opcodes. -/
def lzvn (writer : LzfseWriter) (data : ByteArray) : Filling Nat := do
  let room := (← get).size
  if Lzfse.sizeLimit ≤ room then fail (.argument .lzvnOutputLength)
  else if Lzfse.sizeLimit ≤ data.size then fail (.argument .lzvnInputLength)
  else lzfse writer (lzvnStream data room)

/-- Decodes a unit that is stored after `marker` or encoded as `inflate` understands it. -/
def marked (marker : UInt8) (empty : CompressionFault) (inflate : ByteArray → Filling Nat)
    (data : ByteArray) : Filling Nat := do
  if data.size = 0 then fail (.compression empty)
  else if (← byteAt data 0) = marker then stored (← cut data 1 data.size)
  else inflate data

end Filling

/-- Decodes a unit of data into the whole buffer. -/
def Codec.fill (codec : Codec) (data : ByteArray) (writer : LzfseWriter) : Filling Nat :=
  match codec with
  | stored => Filling.stored data
  | zlib => Filling.marked zlibStoredMarker .emptyDeflate Filling.zlib data
  | lzvn => Filling.marked lzvnStoredMarker .emptyLzvn (Filling.lzvn writer) data
  | lzfse => Filling.lzfse writer data
  | zeros => Filling.zeros

/-- Decodes a unit of data into the whole buffer. -/
def CompressionMethod.fill (m : CompressionMethod) (data : ByteArray) (writer : LzfseWriter) :
    Filling Nat :=
  match m.codec? with
  | some codec => codec.fill data writer
  | none => fail (.unsupportedMethod m.code)

/-- Decodes a unit of data into the first `size` bytes of `buffer`.  Gives the number of bytes
    written, or why decoding ended early, and the buffer afterwards. -/
def decompressInPlace (method : CompressionMethod) (data : ByteArray) (size : Nat)
    (buffer : ByteArray) (writer : LzfseWriter) : Except Stop Nat × ByteArray :=
  if buffer.size < size then (.error (.failed (.outputTooSmall size buffer.size)), buffer)
  else match Filling.front size (method.fill data writer) buffer with
    | .ok written buffer => (.ok written, buffer)
    | .error stop buffer => (.error stop, buffer)

end Apfs
