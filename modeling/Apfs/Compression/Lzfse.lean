import Apfs.Compression.Decoded

namespace Apfs

/-!
# LZFSE streams

An LZFSE stream is a sequence of blocks, each with a magic of four bytes, up to an end block.  How
the blocks are decoded is not said here: whoever decompresses brings a decoder of such streams.

* `LzfseDecoder` — a decoder of streams.
* `inflateLzfse` — decodes a stream into a limited output.
* `inflateLzvn` — decodes opcodes that stand alone, without the headers of a block.
-/

/-- A decoder of LZFSE streams.  Given the data and the room for the output, it gives the output or
    the reason why there is none. -/
abbrev LzfseDecoder := (data : ByteArray) → (room : Nat) → Except String ByteArray

namespace Lzfse

/-- The magics of an end block and of an LZVN block. -/
def endMagic : List UInt8 := [0x62, 0x76, 0x78, 0x24]
@[inherit_doc endMagic] def lzvnMagic : List UInt8 := [0x62, 0x76, 0x78, 0x6e]

/-- The least number that the header of an LZVN block has no room for. -/
def sizeLimit : Nat := 0x100000000

end Lzfse

/-- Decodes an LZFSE stream into at most `capacity` bytes.  The decoder is given one byte more
    than that, so that output which only just fits is told from output that goes on. -/
def inflateLzfse (data : ByteArray) (capacity : Nat) (decoder : LzfseDecoder) : Decoded :=
  match decoder data (capacity + 1) with
  | .ok output => if capacity < output.size then .error (.compression .lzfseSize) else .ok output
  | .error reason => .error (.lzfse reason)

/-- Decodes LZVN opcodes into at most `capacity` bytes, as a single block of an LZFSE stream. -/
def inflateLzvn (data : ByteArray) (capacity : Nat) (decoder : LzfseDecoder) : Decoded :=
  if Lzfse.sizeLimit ≤ capacity then .error (.argument .lzvnOutputLength)
  else if Lzfse.sizeLimit ≤ data.size then .error (.argument .lzvnInputLength)
  else
    let number n : List UInt8 := Bytes.littleEndian 4 n
    let header := Lzfse.lzvnMagic ++ number capacity ++ number data.size
    inflateLzfse (⟨header.toArray⟩ ++ data ++ ⟨Lzfse.endMagic.toArray⟩) capacity decoder

end Apfs
