import Apfs.Compression.Method
import Apfs.Compression.ResourceFork
import Apfs.Volume.Lock

namespace Apfs

/-!
# Compressed files

A compressed file carries an attribute that starts with a header: a signature, the compression
method and the size of the data.  Small files keep their compressed data after the header, large
ones in the resource fork.

* `CompressionHeader` — the header; `CompressionHeader.read` finds it in an attribute.
* `CompressedFile` — an attribute taken apart; `CompressedFile.decompress` decodes the file.
* `CompressedFile.decompressAll` — decodes a file from its attributes.
-/

/-- The header of compressed data. -/
structure CompressionHeader where
  /-- The bytes that mark the attribute as a header. -/
  signature : Vector UInt8 4
  /-- How the data is encoded and where it is. -/
  method : CompressionMethod
  /-- The size of the data after decompression. -/
  uncompressedSize : UInt64
deriving DecidableEq

instance : Layout CompressionHeader :=
  .record
    (.andColumn "signature" (Vector UInt8 4) <|
      .andColumn "compression_method" CompressionMethod <|
      .column "uncompressed_data_size" UInt64)
    (fun (signature, method, uncompressedSize) => { signature, method, uncompressedSize })
    (fun h => (h.signature, h.method, h.uncompressedSize))

namespace CompressionHeader

/-- The signature of every header. -/
def expectedSignature : Vector UInt8 4 := #v[0x66, 0x70, 0x6d, 0x63]

/-- The header at the start of an attribute, or none if the attribute has another signature and
    so does not stand for compressed data. -/
def read (content : ByteArray) : Except Error (Option CompressionHeader) :=
  if content.size < Layout.size CompressionHeader then
    .error (.argument .compressionHeaderLength)
  else do
    let header : CompressionHeader ← decode content
    return if header.signature = expectedSignature then some header else none

end CompressionHeader

/-- A compressed file. -/
structure CompressedFile where
  /-- The header of the attribute. -/
  header : CompressionHeader
  /-- The bytes of the attribute after the header. -/
  inlineData : ByteArray

namespace CompressedFile

/-- The number of bytes that every chunk but the last decodes to. -/
def chunkSize : Nat := 65536

/-- The least size that cannot be addressed. -/
def sizeLimit : Nat := 0x8000000000000000

/-- The file that an attribute describes, or none if it is not compressed. -/
def ofAttribute (content : ByteArray) : Except Error (Option CompressedFile) := do
  let header? ← CompressionHeader.read content
  let start := Layout.size CompressionHeader
  return header?.map fun header =>
    { header, inlineData := content.extract start content.size }

/-- The size of the data after decompression. -/
def size (f : CompressedFile) : Nat := f.header.uncompressedSize.toNat

/-- Decodes chunks and appends them to `output`, which is to become `size` bytes long. -/
def decodeChunks (method : CompressionMethod) (decoder : LzfseDecoder) (size : Nat) :
    (chunks : List ByteArray) → (output : ByteArray) → Except Error ByteArray
  | [], output => .ok output
  | chunk :: chunks, output => do
    let expected := min chunkSize (size - output.size)
    let data ← (method.decode chunk expected decoder).result
    if data.size ≠ expected then throw (.compression .chunkSize)
    decodeChunks method decoder size chunks (output ++ data)

/-- The data of a file that is stored in the resource fork. -/
def decompressFork (f : CompressedFile) (fork : ByteArray) (decoder : LzfseDecoder) :
    Except Error ByteArray := do
  let chunks ←
    if f.header.method = .zlibFork then ResourceFork.locatedChunks fork
    else ResourceFork.adjacentChunks fork
  if chunks.size ≠ (f.size + (chunkSize - 1)) / chunkSize then
    throw (.compression .chunkCount)
  decodeChunks f.header.method decoder f.size chunks.toList .empty

/-- The data of a file that is stored after the header. -/
def decompressInline (f : CompressedFile) (decoder : LzfseDecoder) : Except Error ByteArray := do
  let data ← (f.header.method.decode f.inlineData f.size decoder).result
  if data.size ≠ f.size then throw (.compression .inlineSize)
  return data

/-- The data of the file.  The lock of the volume comes first, then the method, then whether the
    size can be addressed. -/
def decompress (f : CompressedFile) (fork : Option ByteArray) (lock : VolumeLock)
    (decoder : LzfseDecoder) : Except Error ByteArray := do
  lock.ensureUnlocked
  let method := f.header.method
  if method.codec?.isNone then throw (.unsupportedMethod method.code)
  if sizeLimit ≤ f.size then throw (.allocation f.header.uncompressedSize)
  if method.inFork then
    match fork with
    | some fork => f.decompressFork fork decoder
    | none => throw (.compression .missingFork)
  else f.decompressInline decoder

/-- The data of the file that an attribute describes, or none if it is not compressed. -/
def decompressAll (content : ByteArray) (fork : Option ByteArray) (lock : VolumeLock)
    (decoder : LzfseDecoder) : Except Error (Option ByteArray) := do
  lock.ensureUnlocked
  match ← ofAttribute content with
  | some f => return some (← f.decompress fork lock decoder)
  | none => return none

end CompressedFile

end Apfs
