import Apfs.Checksum.Adler32
import Apfs.Compression.Inflate

namespace Apfs

/-!
# Zlib decoding

A zlib stream is a deflate stream between a header of two bytes and the Adler-32 checksum of the
output.  The checksum is verified when the last block was decoded to its end, not when decoding
stopped because the output was full.

* `zlibFault?` — what is wrong with a header.
* `inflateZlib` — decodes a whole stream.
-/

/-- What is wrong with the header bytes `method` and `flags`; the first fault found counts. -/
def zlibFault? (method flags : UInt8) : Option ZlibFault :=
  if method &&& 0x0f ≠ 8 then some .method
  else if 7 < method.toNat / 16 then some .windowSize
  else if (method.toNat * 256 + flags.toNat) % 31 ≠ 0 then some .check
  else if flags &&& 0x20 ≠ 0 then some .dictionary
  else none

namespace Inflater

/-- Reads and checks the header. -/
def zlibHeader : BitReading Unit := do
  let header ← BitReader.takeBytes 2
  match zlibFault? (Bytes.get header 0) (Bytes.get header 1) with
  | some fault => throw (.zlib fault)
  | none => return

/-- Reads the checksum after the last block and compares it with that of the output. -/
def zlibTrailer : Inflating Unit := do
  let trailer ← reading (BitReader.takeBytes 4)
  let stored := UInt32.ofNat (Bytes.ofBigEndian trailer.toList)
  let computed := Checksum.adler32 (← get).output
  if stored ≠ computed then throw (.adlerMismatch stored computed)

/-- Decodes a stream with its header and trailer. -/
def zlibStream (capacity : Nat) : Inflating Unit := do
  reading zlibHeader
  if (← blocks capacity) = .reached then zlibTrailer

end Inflater

/-- Decodes a zlib stream into at most `capacity` bytes. -/
def inflateZlib (data : ByteArray) (capacity : Nat) : Decoded :=
  Inflater.decodeAll (Inflater.zlibStream capacity) data

end Apfs
