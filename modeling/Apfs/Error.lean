import Apfs.Identifier
import Apfs.Text.Hex

namespace Apfs

/-!
# Errors

Everything that can go wrong while a container is read, as data: one constructor for each
cause, with the values that the message shows.

* `Error` — the causes; faults of one format are grouped in a type of their own
  (`ArgumentFault`, `PrefixCodeFault`, `DeflateFault`, …).
* `Error.message` — the text of an error.
* `Error.kind` — the coarse class of an error.
-/

/-- Why a caller's value is refused. -/
inductive ArgumentFault where
  | bitCount
  | symbolCount
  | checksumLength
  | objectTooShort
  | zeroBlockSize
  | blockSizeRange
  | entryIndex
  | compressionHeaderLength
  | lzvnOutputLength
  | lzvnInputLength
  /-- A reason of the caller's own, such as a visitor's wish to stop. -/
  | other (reason : String)
deriving DecidableEq

/-- Why code lengths or a code word are refused. -/
inductive PrefixCodeFault where
  | lengthTooLong
  | overSubscribed
  | undefinedCode
deriving DecidableEq

/-- Why a deflate stream is refused. -/
inductive DeflateFault where
  | storedLength
  | literalCodeCount
  | distanceCodeCount
  | repeatWithoutPrevious
  | codeLengthSymbol
  | codeLengthOverrun
  | missingEndOfBlock
  | literalSymbol
  | distanceSymbol
  | distanceTooFar
  | blockType
deriving DecidableEq

/-- Why a zlib header is refused. -/
inductive ZlibFault where
  | method
  | windowSize
  | check
  | dictionary
deriving DecidableEq

/-- Why the compressed data of a file is refused. -/
inductive CompressionFault where
  | emptyDeflate
  | emptyLzvn
  | forkTooSmall
  | resourceHeader
  | chunkTable
  | chunkTableSize
  | chunkOrder
  | chunkBounds
  | chunkCount
  | chunkSize
  | inlineSize
  | lzfseSize
  | missingFork
deriving DecidableEq

/-- Why a B-tree node or an entry of one is refused. -/
inductive NodeFault where
  | tableBounds
  | tooManyKeys
  | rootTooSmall
  | keyBounds
  | valueOffset
  | valueBounds
  | childLevel
  | childSubtype
  | entryName
deriving DecidableEq

/-- The causes of failure. -/
inductive Error where
  /-- A structure needs more bytes than there are. -/
  | inputTooSmall (needed available : Nat)
  /-- A field lies outside the bytes that should hold it. -/
  | fieldOutOfBounds (field : String)
  | argument (fault : ArgumentFault)
  /-- The caller's buffer cannot hold the data. -/
  | outputTooSmall (needed available : Nat)
  /-- A file claims more bytes than can be addressed. -/
  | allocation (size : UInt64)
  | invalidUtf8
  | invalidUtf16
  /-- The Fletcher-64 checksum of an object differs from the stored one. -/
  | checksumMismatch (stored computed : UInt64)
  /-- The Adler-32 checksum of decompressed data differs from the stored one. -/
  | adlerMismatch (stored computed : UInt32)
  /-- More bits were asked for than remain. -/
  | bitsExhausted (requested available : Nat)
  | prefixCode (fault : PrefixCodeFault)
  | deflate (fault : DeflateFault)
  | zlib (fault : ZlibFault)
  | compression (fault : CompressionFault)
  /-- The decoder of LZFSE and LZVN data gives up, for a reason of its own. -/
  | lzfse (reason : String)
  | objectType (expected actual : UInt32)
  | objectSubtype (expected actual : UInt32)
  | node (fault : NodeFault)
  /-- A tree was asked for, but the node is not the root of one. -/
  | notRoot
  /-- The leaves of a tree are more than `limit` levels away. -/
  | treeTooDeep (limit : Nat)
  /-- No live mapping leads to a child of a tree. -/
  | virtualNotFound (id : VirtualId)
  | unsupportedMethod (code : UInt32)
  | volumeLocked
  /-- Children of a tree are named by ephemeral identifiers. -/
  | ephemeralChild
  | blockOutOfBounds (address : BlockAddress)
  /-- The byte source ends before a read is complete. -/
  | shortRead
deriving DecidableEq

/-- The coarse class of an error. -/
inductive ErrorKind where
  /-- The caller passed a value that cannot be used. -/
  | argument
  /-- There is not enough memory. -/
  | memory
  /-- Text cannot be decoded. -/
  | conversion
  /-- The data is corrupt, cut off or fails verification. -/
  | input
  /-- The operation is not supported, or not in the present state. -/
  | runtime
deriving DecidableEq

/-! ### Message texts -/

/-- The reason that a message gives. -/
def ArgumentFault.text : ArgumentFault → String
  | bitCount => "bit count exceeds 32"
  | symbolCount => "too many Huffman symbols"
  | checksumLength => "fletcher64 input length not a multiple of 4"
  | objectTooShort => "object shorter than checksum field"
  | zeroBlockSize => "block size must be non-zero"
  | blockSizeRange => "block size must be a power of two from 4096 to 65536"
  | entryIndex => "B-tree entry index out of range"
  | compressionHeaderLength => "compressed data header requires 16 bytes"
  | lzvnOutputLength => "LZVN output too large"
  | lzvnInputLength => "LZVN input too large"
  | other reason => reason

/-- The reason that a message gives. -/
def PrefixCodeFault.text : PrefixCodeFault → String
  | lengthTooLong => "code length exceeds 15"
  | overSubscribed => "over-subscribed code lengths"
  | undefinedCode => "undefined code"

/-- The reason that a message gives. -/
def DeflateFault.text : DeflateFault → String
  | storedLength => "stored block length mismatch"
  | literalCodeCount => "too many literal/length codes"
  | distanceCodeCount => "too many distance codes"
  | repeatWithoutPrevious => "repeat with no previous length"
  | codeLengthSymbol => "invalid code length symbol"
  | codeLengthOverrun => "code lengths overrun"
  | missingEndOfBlock => "missing end-of-block code"
  | literalSymbol => "invalid literal/length symbol"
  | distanceSymbol => "invalid distance symbol"
  | distanceTooFar => "distance exceeds output produced"
  | blockType => "invalid block type"

/-- The reason that a message gives. -/
def ZlibFault.text : ZlibFault → String
  | method => "unsupported compression method"
  | windowSize => "window size too large"
  | check => "header check failed"
  | dictionary => "preset dictionary not supported"

/-- The reason that a message gives. -/
def CompressionFault.text : CompressionFault → String
  | emptyDeflate => "empty deflate data"
  | emptyLzvn => "empty LZVN data"
  | forkTooSmall => "resource fork too small"
  | resourceHeader => "resource header out of bounds"
  | chunkTable => "chunk table out of bounds"
  | chunkTableSize => "invalid chunk offset table size"
  | chunkOrder => "chunk offsets not ascending"
  | chunkBounds => "chunk out of bounds"
  | chunkCount => "chunk count doesn't match uncompressed size"
  | chunkSize => "chunk decodes to unexpected size"
  | inlineSize => "inline data decodes to unexpected size"
  | lzfseSize => "LZFSE data decodes past expected size"
  | missingFork => "compressed data requires a resource fork"

/-- The reason that a message gives. -/
def NodeFault.text : NodeFault → String
  | tableBounds => "table of contents out of bounds"
  | tooManyKeys => "too many keys for table of contents"
  | rootTooSmall => "root node too small for tree info"
  | keyBounds => "key out of bounds"
  | valueOffset => "value offset out of bounds"
  | valueBounds => "value out of bounds"
  | childLevel => "child node level mismatch"
  | childSubtype => "child node subtype mismatch"
  | entryName => "directory entry name out of bounds"

namespace Error

/-- The text of an error. -/
def message : Error → String
  | inputTooSmall needed available =>
    s!"APFS parse error input too small: need {needed} bytes; have {available}"
  | fieldOutOfBounds field => s!"APFS parse error field {field} out of bounds"
  | argument fault => s!"invalid argument: {fault.text}"
  | outputTooSmall needed available =>
    s!"output buffer too small: need {needed} bytes; have {available}"
  | allocation size => s!"unable to allocate {size} bytes"
  | invalidUtf8 => "invalid UTF-8 string data"
  | invalidUtf16 => "invalid UTF-16 string data"
  | checksumMismatch stored computed =>
    let (stored, computed) := (Text.hexWord 16 stored.toNat, Text.hexWord 16 computed.toNat)
    s!"invalid fletcher64 checksum: stored {stored}; computed {computed}"
  | adlerMismatch stored computed =>
    let (stored, computed) := (Text.hexWord 8 stored.toNat, Text.hexWord 8 computed.toNat)
    s!"invalid adler32 checksum: stored {stored}; computed {computed}"
  | bitsExhausted requested available =>
    s!"bit stream exhausted: requested {requested} bits; {available} available"
  | prefixCode fault => s!"invalid Huffman code: {fault.text}"
  | deflate fault => s!"invalid deflate stream: {fault.text}"
  | zlib fault => s!"invalid zlib header: {fault.text}"
  | compression fault => s!"invalid compressed data: {fault.text}"
  | lzfse reason => s!"LZFSE/LZVN decoding failed: {reason}"
  | objectType expected actual =>
    let (expected, actual) := (Text.hexWord 8 expected.toNat, Text.hexWord 8 actual.toNat)
    s!"unexpected object type {actual}; expected {expected}"
  | objectSubtype expected actual =>
    let (expected, actual) := (Text.hexWord 8 expected.toNat, Text.hexWord 8 actual.toNat)
    s!"unexpected object subtype {actual}; expected {expected}"
  | node fault => s!"malformed B-tree node: {fault.text}"
  | notRoot => "B-tree node is not a root"
  | treeTooDeep limit => s!"B-tree exceeds maximum depth of {limit}"
  | virtualNotFound id => s!"virtual object id {id.value} not found"
  | unsupportedMethod code => s!"unsupported compression method {code}"
  | volumeLocked => "volume is locked"
  | ephemeralChild => "unimplemented: resolving ephemeral IDs for B-tree walking"
  | blockOutOfBounds address =>
    s!"block read error: block number {address.value} is out of bounds"
  | shortRead =>
    "block read error: I/O error reading block data: failed to fill whole buffer"

/-- The coarse class of an error. -/
def kind : Error → ErrorKind
  | argument _ | outputTooSmall .. => .argument
  | allocation _ => .memory
  | invalidUtf8 | invalidUtf16 => .conversion
  | unsupportedMethod _ | volumeLocked | ephemeralChild => .runtime
  | _ => .input

end Error

end Apfs
