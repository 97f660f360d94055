import Apfs.Compression.Lzfse
import Apfs.Compression.Zlib
import Apfs.Layout

namespace Apfs

/-!
# Compression methods

A method number says how the data of a file is encoded, and whether it stands after the header or
in the resource fork.

* `Codec` — the encodings; `Codec.decode` decodes one unit of data.
* `CompressionMethod` — a method number, known or not.
* `decompress` — decodes one unit of data into a caller's buffer.
-/

/-! ### Encodings -/

/-- How a unit of data is encoded. -/
inductive Codec where
  /-- The bytes themselves. -/
  | stored
  /-- A zlib stream, or bytes stored after a marker. -/
  | zlib
  /-- LZVN opcodes, or bytes stored after a marker. -/
  | lzvn
  /-- An LZFSE stream. -/
  | lzfse
  /-- Nothing; the data is all zeros. -/
  | zeros
deriving DecidableEq

namespace Codec

/-- The first byte of a zlib unit whose bytes are stored. -/
def zlibStoredMarker : UInt8 := 0xff

/-- The first byte of an LZVN unit whose bytes are stored.  It is the end-of-stream opcode, with
    which no encoded unit starts. -/
def lzvnStoredMarker : UInt8 := 0x06

/-- Decodes a unit that is stored after `marker` or encoded as `inflate` understands it. -/
def decodeMarked (marker : UInt8) (empty : CompressionFault)
    (inflate : ByteArray → Nat → Decoded) (data : ByteArray) (size : Nat) : Decoded :=
  if data.size = 0 then .error (.compression empty)
  else if Bytes.get data 0 = marker then .ok (data.extract 1 (1 + size))
  else inflate data size

/-- Decodes a unit of data into at most `size` bytes. -/
def decode (codec : Codec) (data : ByteArray) (size : Nat) (decoder : LzfseDecoder) : Decoded :=
  match codec with
  | stored => .ok (data.extract 0 size)
  | zlib => decodeMarked zlibStoredMarker .emptyDeflate inflateZlib data size
  | lzvn =>
    decodeMarked lzvnStoredMarker .emptyLzvn (fun data size => inflateLzvn data size decoder)
      data size
  | lzfse => inflateLzfse data size decoder
  | zeros => .ok (Bytes.zeros size)

end Codec

/-! ### Methods -/

/-- The number of a compression method. -/
structure CompressionMethod where
  /-- The number on disk. -/
  code : UInt32
deriving DecidableEq, Inhabited

instance : Layout CompressionMethod :=
  .record (.column "0" UInt32) CompressionMethod.mk CompressionMethod.code

namespace CompressionMethod

/-- What is known of a method. -/
structure Description where
  /-- The number on disk. -/
  code : UInt32
  /-- The name of the method. -/
  name : String
  /-- How each unit of data is encoded. -/
  codec : Codec
  /-- Whether the data is in the resource fork, in chunks. -/
  inFork : Bool

/-- All methods that are known. -/
def known : List Description :=
  [⟨1, "UncompressedAttribute", .stored, false⟩,
    ⟨3, "ZlibAttribute", .zlib, false⟩,
    ⟨4, "ZlibResourceFork", .zlib, true⟩,
    ⟨5, "Sparse", .zeros, false⟩,
    ⟨7, "LzvnAttribute", .lzvn, false⟩,
    ⟨8, "LzvnResourceFork", .lzvn, true⟩,
    ⟨9, "UncompressedAttributeV2", .stored, false⟩,
    ⟨10, "UncompressedResourceFork", .stored, true⟩,
    ⟨11, "LzfseAttribute", .lzfse, false⟩,
    ⟨12, "LzfseResourceFork", .lzfse, true⟩]

/-- The method with zlib chunks in the resource fork. -/
def zlibFork : CompressionMethod := ⟨4⟩

/-- What is known of the method. -/
def description? (m : CompressionMethod) : Option Description :=
  known.find? fun d => d.code == m.code

/-- The name of the method. -/
def name (m : CompressionMethod) : String :=
  match m.description? with
  | some d => d.name
  | none => s!"Unknown({m.code})"

/-- Whether the data is in the resource fork. -/
def inFork (m : CompressionMethod) : Bool :=
  m.description?.any Description.inFork

/-- How each unit of data is encoded. -/
def codec? (m : CompressionMethod) : Option Codec :=
  m.description?.map Description.codec

/-- Decodes a unit of data into at most `size` bytes. -/
def decode (m : CompressionMethod) (data : ByteArray) (size : Nat) (decoder : LzfseDecoder) :
    Decoded :=
  match m.codec? with
  | some codec => codec.decode data size decoder
  | none => .error (.unsupportedMethod m.code)

end CompressionMethod

/-- Decodes a unit of data into the first `size` bytes of `buffer`.  Gives the number of bytes
    written, or the error, and the buffer afterwards. -/
def decompress (method : CompressionMethod) (data : ByteArray) (size : Nat)
    (buffer : ByteArray) (decoder : LzfseDecoder) : Except Error Nat × ByteArray :=
  if buffer.size < size then (.error (.outputTooSmall size buffer.size), buffer)
  else (method.decode data size decoder).into buffer

end Apfs
