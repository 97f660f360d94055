import Apfs.Compression.InPlace.CodeTable
import Apfs.Compression.Zlib

namespace Apfs

/-!
# Deflate decoding in place

Decoding into a buffer that the caller provides.  Bytes are written one after the other from the
start of the buffer on, and copies are of bytes of the same buffer.  Loops count their rounds, and
each round consumes input.

* `OutputBuffer` — the caller's buffer and how much of it is written.
* `InPlaceInflater` — the state of decoding.
* `InPlaceInflater.repeatRounds` — loops.
* `inflateInPlace`, `inflateZlibInPlace` — decode a whole stream.
-/

/-! ### The buffer -/

/-- A buffer that is written from its start on. -/
structure OutputBuffer where
  /-- The bytes of the buffer, with what is already written. -/
  data : ByteArray
  /-- The number of bytes that are written. -/
  offset : Nat

/-- A checked step that writes to a buffer. -/
abbrev Writing := EStateM Stop OutputBuffer

namespace OutputBuffer

/-- The number of bytes that can still be written. -/
def room : Writing Nat := do
  let out ← get
  minus out.data.size out.offset

/-- Writes a byte. -/
def push (b : UInt8) : Writing Unit := fun ⟨data, offset⟩ =>
  if h : offset < data.size then .ok () ⟨data.set offset b h, offset + 1⟩
  else .error (.breach .outOfRange) ⟨data, offset⟩

/-- Writes the first `count` of some bytes. -/
def append (bytes : ByteArray) (count : Nat) : Writing Unit := fun ⟨data, offset⟩ =>
  if offset + count ≤ data.size ∧ count ≤ bytes.size then
    .ok () ⟨Bytes.overlay data offset (bytes.extract 0 count), offset + count⟩
  else .error (.breach .outOfRange) ⟨data, offset⟩

/-- Writes the byte that stands `distance` before the next one. -/
def repeatByte (distance : Nat) : Writing Unit := do
  let out ← get
  let b ← byteAt out.data (← minus out.offset distance)
  push b

/-- Writes bytes that stand `distance` before them, one after the other. -/
def repeatBytes (distance : Nat) : (count : Nat) → Writing Unit
  | 0 => pure ()
  | count + 1 => do
    repeatByte distance
    repeatBytes distance count

/-- Writes `length` bytes, or as many as fit, that stand `distance` before them. -/
def copyBack (distance length : Nat) : Writing Unit := do
  if (← get).offset < distance then fail (.deflate .distanceTooFar)
  else
    expect (0 < distance) .zeroDistance
    repeatBytes distance (min length (← room))

end OutputBuffer

/-! ### Steps -/

/-- The state of decoding. -/
structure InPlaceInflater where
  /-- The cursor in the compressed data. -/
  reader : WordReader
  /-- The caller's buffer. -/
  out : OutputBuffer
  /-- The number of rounds that loops have completed. -/
  rounds : Nat := 0

/-- A checked step of decoding. -/
abbrev InflatingInPlace := EStateM Stop InPlaceInflater

namespace InPlaceInflater

variable {α β : Type}

/-- The number of bits of the input that are not yet read. -/
def remaining (s : InPlaceInflater) : Nat := s.reader.remaining

/-- Reads bits in the midst of decoding. -/
def reading (x : WordReading α) : InflatingInPlace α := fun ⟨reader, out, rounds⟩ =>
  match x reader with
  | .ok a reader => .ok a ⟨reader, out, rounds⟩
  | .error e reader => .error e ⟨reader, out, rounds⟩

/-- Writes bytes in the midst of decoding. -/
def writing (x : Writing α) : InflatingInPlace α := fun ⟨reader, out, rounds⟩ =>
  match x out with
  | .ok a out => .ok a ⟨reader, out, rounds⟩
  | .error e out => .error e ⟨reader, out, rounds⟩

/-- The next `n` bits as a number. -/
def bits (n : Nat) : InflatingInPlace Nat := do
  expect (n ≤ 32) .longRequest
  return (← reading (WordReader.take n)).toNat

/-- Repeats a step, which either gives a result or a value that the next round starts with. -/
def repeatRounds (step : β → InflatingInPlace (α ⊕ β)) (b : β) (s : InPlaceInflater) :
    EStateM.Result Stop InPlaceInflater α :=
  match step b s with
  | .error e s' => .error e s'
  | .ok next s' =>
    if s'.remaining < s.remaining then
      match next with
      | .inl a => .ok a { s' with rounds := s'.rounds + 1 }
      | .inr b => repeatRounds step b { s' with rounds := s'.rounds + 1 }
    else .error (.breach .noProgress) s'
termination_by s.remaining

/-! ### Stored blocks -/

/-- Copies the bytes of a stored block, as far as they fit. -/
def storedBlock : InflatingInPlace BlockEnd := do
  let header ← reading (WordReader.takeBytes 4)
  let length := Bytes.ofLittleEndian [← byteAt header 0, ← byteAt header 1]
  let inverse := Bytes.ofLittleEndian [← byteAt header 2, ← byteAt header 3]
  if length + inverse ≠ 0xffff then fail (.deflate .storedLength)
  else
    let bytes ← reading (WordReader.takeBytes length)
    let count := min bytes.size (← writing OutputBuffer.room)
    writing (OutputBuffer.append bytes count)
    return if count = bytes.size then .reached else .outputFull

/-! ### Coded blocks -/

/-- The number that a symbol and its extra bits stand for. -/
def extended (table : Array (Nat × Nat)) (index : Nat) (fault : DeflateFault) :
    InflatingInPlace Nat := do
  if table.size ≤ index then fail (.deflate fault)
  else
    let (base, extra) ← readAt table index
    return base + (← bits extra)

/-- The base and the number of extra bits of the length symbols 257, 258, …. -/
def lengthTable : Array (Nat × Nat) := Inflater.lengthTable.toArray

/-- The base and the number of extra bits of the distance symbols 0, 1, …. -/
def distanceTable : Array (Nat × Nat) := Inflater.distanceTable.toArray

/-- Decodes one literal or one copy, or tells why there are no more. -/
def codedStep (literals distances : CodeTable) : InflatingInPlace (BlockEnd ⊕ Unit) := do
  let symbol ← reading literals.decode
  -- The end of a block counts even when the buffer is full.
  if symbol = Inflater.endOfBlock then return .inl .reached
  else if (← writing OutputBuffer.room) = 0 then return .inl .outputFull
  else if symbol < Inflater.endOfBlock then
    writing (OutputBuffer.push (UInt8.ofNat symbol))
    return .inr ()
  else
    let length ← extended lengthTable (← minus symbol 257) .literalSymbol
    let symbol ← reading distances.decode
    let distance ← extended distanceTable symbol .distanceSymbol
    writing (OutputBuffer.copyBack distance length)
    return .inr ()

/-- Decodes literals and copies up to the end of their block. -/
def codedBlock (literals distances : CodeTable) : InflatingInPlace BlockEnd :=
  repeatRounds (fun _ => codedStep literals distances) ()

/-! ### The codes of a dynamic block -/

/-- The lengths of the code length code, by symbol, as far as they are sent. -/
def codeLengthLengths (count : Nat) : InflatingInPlace (Array Nat) :=
  (Inflater.codeLengthOrder.take count).foldlM
    (fun lengths symbol => do writeAt lengths symbol (← bits 3))
    (Array.replicate 19 0)

/-- The lengths that one symbol of the code length code stands for, as a value and the number of
    times it is repeated.  The first `index` of `lengths` are known. -/
def codeLengthRun (code : CodeTable) (lengths : Array Nat) (index : Nat) :
    InflatingInPlace (Nat × Nat) := do
  let symbol ← reading code.decode
  if symbol ≤ 15 then return (symbol, 1)
  else if symbol = 16 then
    if index = 0 then fail (.deflate .repeatWithoutPrevious)
    else
      let previous ← readAt lengths (← minus index 1)
      return (previous, 3 + (← bits 2))
  else if symbol = 17 then return (0, 3 + (← bits 3))
  else if symbol = 18 then return (0, 11 + (← bits 7))
  else fail (.deflate .codeLengthSymbol)

/-- Decodes one run of lengths.  The result is there when `total` lengths are known. -/
def codeLengthStep (code : CodeTable) (total : Nat) (known : Array Nat × Nat) :
    InflatingInPlace (Array Nat ⊕ (Array Nat × Nat)) := do
  let (lengths, index) := known
  let (value, count) ← codeLengthRun code lengths index
  if total < index + count then fail (.deflate .codeLengthOverrun)
  else
    let lengths ← fillAt lengths index value count
    return if index + count < total then .inr (lengths, index + count) else .inl lengths

/-- The first `total` lengths of an array that has places for all lengths. -/
def codeLengths (code : CodeTable) (total : Nat) : InflatingInPlace (Array Nat) :=
  let lengths := Array.replicate (286 + 30) 0
  if 0 < total then repeatRounds (codeLengthStep code total) (lengths, 0) else pure lengths

/-- The literal and length code and the distance code at the head of a dynamic block. -/
def dynamicCodes : InflatingInPlace (CodeTable × CodeTable) := do
  let literalCount := 257 + (← bits 5)
  let distanceCount := 1 + (← bits 5)
  let codeLengthCount := 4 + (← bits 4)
  if 286 < literalCount then fail (.deflate .literalCodeCount)
  else if 30 < distanceCount then fail (.deflate .distanceCodeCount)
  else
    let sent ← codeLengthLengths codeLengthCount
    let code ← ofExcept (CodeTable.ofLengths sent.toList)
    let total := literalCount + distanceCount
    let lengths ← codeLengths code total
    if (← readAt lengths Inflater.endOfBlock) = 0 then fail (.deflate .missingEndOfBlock)
    else
      expect (literalCount ≤ total ∧ total ≤ lengths.size) .outOfRange
      let literals ← ofExcept (CodeTable.ofLengths (lengths.extract 0 literalCount).toList)
      let distances ← ofExcept (CodeTable.ofLengths (lengths.extract literalCount total).toList)
      return (literals, distances)

/-! ### Streams -/

/-- Decodes the contents of a block of the given kind. -/
def contents : (kind : Nat) → InflatingInPlace BlockEnd
  | 0 => storedBlock
  | 1 => do
    let literals ← ofExcept CodeTable.fixedLiterals
    let distances ← ofExcept CodeTable.fixedDistances
    codedBlock literals distances
  | 2 => do
    let (literals, distances) ← dynamicCodes
    codedBlock literals distances
  | _ => fail (.deflate .blockType)

/-- Decodes one block, and tells why there are no more. -/
def block : InflatingInPlace (BlockEnd ⊕ Unit) := do
  let last ← bits 1
  let stop ← contents (← bits 2)
  return if stop = .outputFull ∨ last = 1 then .inl stop else .inr ()

/-- Decodes all blocks up to the last one. -/
def blocks : InflatingInPlace BlockEnd :=
  repeatRounds (fun _ => block) ()

/-- Decodes a deflate stream, and gives the number of bytes written. -/
def stream : InflatingInPlace Nat := do
  let _ ← blocks
  return (← get).out.offset

/-- Reads and checks the header of a zlib stream. -/
def zlibHeader : InflatingInPlace Unit := do
  let header ← reading (WordReader.takeBytes 2)
  match zlibFault? (← byteAt header 0) (← byteAt header 1) with
  | some fault => fail (.zlib fault)
  | none => return

/-- Reads the checksum after the last block and compares it with that of the bytes written. -/
def zlibTrailer : InflatingInPlace Unit := do
  let trailer ← reading (WordReader.takeBytes 4)
  let stored := UInt32.ofNat (Bytes.ofBigEndian
    [← byteAt trailer 0, ← byteAt trailer 1, ← byteAt trailer 2, ← byteAt trailer 3])
  let out := (← get).out
  expect (out.offset ≤ out.data.size) .outOfRange
  let computed := Checksum.adler32 (out.data.extract 0 out.offset)
  if stored ≠ computed then fail (.adlerMismatch stored computed)

/-- Decodes a stream with its header and trailer, and gives the number of bytes written. -/
def zlibStream : InflatingInPlace Nat := do
  zlibHeader
  if (← blocks) = .reached then zlibTrailer
  return (← get).out.offset

/-- Runs a decoder on `data` and a caller's buffer. -/
def runOn (x : InflatingInPlace α) (data buffer : ByteArray) : Except Stop α × InPlaceInflater :=
  match x { reader := .ofBytes data .lowFirst, out := ⟨buffer, 0⟩ } with
  | .ok a s => (.ok a, s)
  | .error e s => (.error e, s)

end InPlaceInflater

/-- Decodes a deflate stream into a buffer.  The number of bytes written is the result, unless
    decoding fails. -/
def inflateInPlace (data buffer : ByteArray) : Except Stop Nat × InPlaceInflater :=
  InPlaceInflater.runOn InPlaceInflater.stream data buffer

/-- Decodes a zlib stream into a buffer.  The number of bytes written is the result, unless decoding
    fails. -/
def inflateZlibInPlace (data buffer : ByteArray) : Except Stop Nat × InPlaceInflater :=
  InPlaceInflater.runOn InPlaceInflater.zlibStream data buffer

end Apfs
