import Apfs.Compression.Consumption
import Apfs.Compression.Decoded
import Apfs.Compression.PrefixCode

namespace Apfs

/-!
# Deflate decoding

A deflate stream is a sequence of blocks, the last of them marked.  A block holds stored bytes, or
literals and copies of earlier output written with a prefix code, which is fixed or sent at the
head of the block.

Decoding ends with the last block, or before it when the output is full: at a stored block that
does not fit, or at the first symbol after the output filled up that does not end its block.

* `Inflater` — the state of decoding: the bit reader and the output so far.
* `Inflater.storedBlock`, `Inflater.codedBlock` — the contents of a block.
* `Inflater.dynamicCodes` — the codes at the head of a dynamic block.
* `Inflater.blocks` — all blocks of a stream; `inflate` — a whole stream.
-/

/-- The state of decoding. -/
structure Inflater where
  /-- The cursor in the compressed data. -/
  input : BitReader
  /-- The bytes decoded so far. -/
  output : ByteArray

/-- A step of decoding.  What was read and written before a failure stays. -/
abbrev Inflating := EStateM Error Inflater

/-- Where decoding a block or a stream of blocks ends. -/
inductive BlockEnd where
  /-- At its end. -/
  | reached
  /-- Before its end, because the output is full. -/
  | outputFull
deriving DecidableEq

namespace Inflater

/-! ### Tables -/

/-- The base and the number of extra bits of the length symbols 257, 258, …. -/
def lengthTable : List (Nat × Nat) :=
  [(3, 0), (4, 0), (5, 0), (6, 0), (7, 0), (8, 0), (9, 0), (10, 0), (11, 1), (13, 1), (15, 1),
    (17, 1), (19, 2), (23, 2), (27, 2), (31, 2), (35, 3), (43, 3), (51, 3), (59, 3), (67, 4),
    (83, 4), (99, 4), (115, 4), (131, 5), (163, 5), (195, 5), (227, 5), (258, 0)]

/-- The base and the number of extra bits of the distance symbols 0, 1, …. -/
def distanceTable : List (Nat × Nat) :=
  [(1, 0), (2, 0), (3, 0), (4, 0), (5, 1), (7, 1), (9, 2), (13, 2), (17, 3), (25, 3), (33, 4),
    (49, 4), (65, 5), (97, 5), (129, 6), (193, 6), (257, 7), (385, 7), (513, 8), (769, 8),
    (1025, 9), (1537, 9), (2049, 10), (3073, 10), (4097, 11), (6145, 11), (8193, 12),
    (12289, 12), (16385, 13), (24577, 13)]

/-- The symbols of the code length code, in the order in which their lengths are sent. -/
def codeLengthOrder : List Nat :=
  [16, 17, 18, 0, 8, 7, 9, 6, 10, 5, 11, 4, 12, 3, 13, 2, 14, 1, 15]

/-- The symbol that ends a block. -/
def endOfBlock : Nat := 256

/-! ### Reading and writing -/

/-- Reads bits in the midst of decoding. -/
def reading {α : Type} (x : BitReading α) : Inflating α := fun s =>
  match x s.input with
  | .ok a input => .ok a { s with input }
  | .error e input => .error e { s with input }

/-- Changes the output. -/
def write (f : ByteArray → ByteArray) : Inflating Unit :=
  modify fun s => { s with output := f s.output }

/-! ### Stored blocks -/

/-- Copies the bytes of a stored block, as far as they fit into `capacity`. -/
def storedBlock (capacity : Nat) : Inflating BlockEnd := do
  let header ← reading (BitReader.takeBytes 4)
  let length := Bytes.ofLittleEndian (header.extract 0 2).toList
  let inverse := Bytes.ofLittleEndian (header.extract 2 4).toList
  if length + inverse ≠ 0xffff then throw (.deflate .storedLength)
  let bytes ← reading (BitReader.takeBytes length)
  let room := capacity - (← get).output.size
  write (· ++ bytes.extract 0 room)
  return if bytes.size ≤ room then .reached else .outputFull

/-! ### Coded blocks -/

/-- The number that a symbol and its extra bits stand for. -/
def extended (table : List (Nat × Nat)) (index : Nat) (fault : DeflateFault) : BitReading Nat :=
  match table[index]? with
  | some (base, extra) => do return base + (← BitReader.take extra)
  | none => throw (.deflate fault)

/-- Decodes one literal or one copy, or tells why there are no more. -/
def codedStep (capacity : Nat) (literals distances : PrefixCode) :
    Inflating (Option BlockEnd) := do
  let symbol ← reading literals.decode
  -- The end of a block counts even when the output is full.
  if symbol = endOfBlock then return some .reached
  if capacity ≤ (← get).output.size then return some .outputFull
  if symbol < endOfBlock then
    write (·.push (UInt8.ofNat symbol))
    return none
  let length ← reading (extended lengthTable (symbol - 257) .literalSymbol)
  let symbol ← reading distances.decode
  let distance ← reading (extended distanceTable symbol .distanceSymbol)
  let size := (← get).output.size
  if size < distance then throw (.deflate .distanceTooFar)
  -- A copy that does not fit is cut off; the next symbol tells whether anything is missing.
  let count := min length (capacity - size)
  write (Bytes.copyBack · distance count)
  return none

/-! ### The codes of a dynamic block -/

/-- The lengths that one symbol of the code length code stands for, as a value and one less than
    the number of times it is repeated. -/
def codeLengthRun (code : PrefixCode) (lengths : List Nat) : BitReading (Nat × Nat) := do
  let symbol ← code.decode
  if symbol ≤ 15 then return (symbol, 0)
  else if symbol = 16 then
    match lengths.getLast? with
    | none => throw (.deflate .repeatWithoutPrevious)
    | some previous => return (previous, 2 + (← BitReader.take 2))
  else if symbol = 17 then return (0, 2 + (← BitReader.take 3))
  else if symbol = 18 then return (0, 10 + (← BitReader.take 7))
  else throw (.deflate .codeLengthSymbol)

/-- Appends runs to `lengths` until there are `total`. -/
def codeLengths (code : PrefixCode) (total : Nat) (lengths : List Nat) :
    BitReading (List Nat) := do
  if lengths.length < total then
    let (value, more) ← codeLengthRun code lengths
    if lengths.length + (more + 1) ≤ total then
      codeLengths code total (lengths ++ List.replicate (more + 1) value)
    else throw (.deflate .codeLengthOverrun)
  else return lengths
termination_by total - lengths.length
decreasing_by simp only [List.length_append, List.length_replicate]; omega

/-- The lengths of the code length code, by symbol, as far as they are sent. -/
def codeLengthLengths (count : Nat) : BitReading (List Nat) := do
  let sent ← (codeLengthOrder.take count).mapM fun symbol => do
    return (symbol, ← BitReader.take 3)
  return (List.range codeLengthOrder.length).map fun symbol => (sent.lookup symbol).getD 0

/-- The literal and length code and the distance code at the head of a dynamic block. -/
def dynamicCodes : BitReading (PrefixCode × PrefixCode) := do
  let literalCount := 257 + (← BitReader.take 5)
  let distanceCount := 1 + (← BitReader.take 5)
  let codeLengthCount := 4 + (← BitReader.take 4)
  if 286 < literalCount then throw (.deflate .literalCodeCount)
  if 30 < distanceCount then throw (.deflate .distanceCodeCount)
  let code ← ofExcept (PrefixCode.ofLengths (← codeLengthLengths codeLengthCount))
  let lengths ← codeLengths code (literalCount + distanceCount) []
  if lengths.getD endOfBlock 0 = 0 then throw (.deflate .missingEndOfBlock)
  let literals ← ofExcept (PrefixCode.ofLengths (lengths.take literalCount))
  let distances ← ofExcept (PrefixCode.ofLengths (lengths.drop literalCount))
  return (literals, distances)

/-! ### What is consumed -/

/-- The number of bits of the input that are not yet read. -/
def remaining (s : Inflater) : Nat := s.input.remaining

theorem forward_reading {α : Type} {x : BitReading α} (hx : Forward BitReader.remaining x) :
    Forward remaining (reading x) := by
  intro s a s' h
  simp only [reading] at h
  split at h
  next hr => injection h with _ h; exact h ▸ hx hr
  next => contradiction

theorem strict_reading {α : Type} {x : BitReading α} (hx : Strict BitReader.remaining x) :
    Strict remaining (reading x) := by
  intro s a s' h
  simp only [reading] at h
  split at h
  next hr => injection h with _ h; exact h ▸ hx hr
  next => contradiction

theorem forward_take (n : Nat) : Forward BitReader.remaining (BitReader.take n) :=
  fun _ _ _ h => by have := BitReader.remaining_take h; omega

theorem forward_takeBytes (n : Nat) : Forward BitReader.remaining (BitReader.takeBytes n) :=
  fun _ _ _ h => BitReader.remaining_takeBytes_le h

theorem strict_decode (code : PrefixCode) : Strict BitReader.remaining code.decode :=
  fun _ _ _ h => PrefixCode.remaining_decode_lt h

theorem forward_extended (table : List (Nat × Nat)) (index : Nat) (fault : DeflateFault) :
    Forward BitReader.remaining (extended table index fault) := by
  simp only [extended]
  split
  · exact (forward_take _).bind fun _ => .pure _
  · exact .throw _

theorem forward_write (f : ByteArray → ByteArray) : Forward remaining (write f) :=
  Forward.update fun _ => Nat.le_refl _

/-- Each literal and each copy takes at least one bit. -/
theorem strict_codedStep (capacity : Nat) (literals distances : PrefixCode) :
    Strict remaining (codedStep capacity literals distances) := by
  refine (strict_reading (strict_decode _)).bind fun symbol => ?_
  split
  · exact .pure _
  refine Forward.get.bind fun s => ?_
  split
  · exact .pure _
  split
  · exact (forward_write _).bind fun _ => .pure _
  refine (forward_reading (forward_extended ..)).bind fun length => ?_
  refine (forward_reading (strict_decode _).forward).bind fun symbol => ?_
  refine (forward_reading (forward_extended ..)).bind fun distance => ?_
  refine Forward.get.bind fun s => ?_
  dsimp only
  split
  · exact (Forward.throw _).bind fun _ => (forward_write _).bind fun _ => .pure _
  · exact (forward_write _).bind fun _ => .pure _

/-- Decodes literals and copies up to the end of their block. -/
def codedBlock (capacity : Nat) (literals distances : PrefixCode) : Inflating BlockEnd :=
  loop (codedStep capacity literals distances) (strict_codedStep ..)

theorem forward_storedBlock (capacity : Nat) : Forward remaining (storedBlock capacity) := by
  refine (forward_reading (forward_takeBytes _)).bind fun header => ?_
  dsimp only
  split
  · refine (Forward.throw _).bind fun _ => ?_
    refine (forward_reading (forward_takeBytes _)).bind fun bytes => Forward.get.bind fun s => ?_
    exact (forward_write _).bind fun _ => .pure _
  · refine (forward_reading (forward_takeBytes _)).bind fun bytes => Forward.get.bind fun s => ?_
    exact (forward_write _).bind fun _ => .pure _

theorem forward_codeLengthRun (code : PrefixCode) (lengths : List Nat) :
    Forward BitReader.remaining (codeLengthRun code lengths) := by
  refine (strict_decode code).forward.bind fun symbol => ?_
  split
  · exact .pure _
  split
  · split
    · exact .throw _
    · exact (forward_take _).bind fun _ => .pure _
  split
  · exact (forward_take _).bind fun _ => .pure _
  split
  · exact (forward_take _).bind fun _ => .pure _
  · exact .throw _

theorem forward_codeLengths (code : PrefixCode) (total : Nat) (lengths : List Nat) :
    Forward BitReader.remaining (codeLengths code total lengths) := by
  fun_induction codeLengths code total lengths with
  | case1 lengths _ ih =>
    refine (forward_codeLengthRun ..).bind fun (value, more) => ?_
    dsimp only
    split
    next h => exact ih value more h
    next => exact .throw _
  | case2 => exact .pure _

theorem forward_codeLengthLengths (count : Nat) :
    Forward BitReader.remaining (codeLengthLengths count) :=
  (Forward.mapM (fun _ => (forward_take _).bind fun _ => .pure _) _).bind fun _ => .pure _

theorem forward_dynamicCodes : Forward BitReader.remaining dynamicCodes := by
  refine (forward_take _).bind fun literalBits => (forward_take _).bind fun distanceBits =>
    (forward_take _).bind fun codeLengthBits => ?_
  dsimp only
  have tail : Forward BitReader.remaining (do
      let code ← ofExcept (PrefixCode.ofLengths (← codeLengthLengths (4 + codeLengthBits)))
      let lengths ← codeLengths code (257 + literalBits + (1 + distanceBits)) []
      if lengths.getD endOfBlock 0 = 0 then throw (.deflate .missingEndOfBlock)
      let literals ← ofExcept (PrefixCode.ofLengths (lengths.take (257 + literalBits)))
      let distances ← ofExcept (PrefixCode.ofLengths (lengths.drop (257 + literalBits)))
      return (literals, distances)) := by
    refine (forward_codeLengthLengths _).bind fun sent => (Forward.ofExcept _).bind fun code =>
      (forward_codeLengths ..).bind fun lengths => ?_
    dsimp only
    split
    · exact (Forward.throw _).bind fun _ => (Forward.ofExcept _).bind fun _ =>
        (Forward.ofExcept _).bind fun _ => .pure _
    · exact (Forward.ofExcept _).bind fun _ => (Forward.ofExcept _).bind fun _ => .pure _
  split
  · refine (Forward.throw _).bind fun _ => ?_
    split
    · exact (Forward.throw _).bind fun _ => tail
    · exact tail
  · split
    · exact (Forward.throw _).bind fun _ => tail
    · exact tail

/-! ### Streams -/

/-- Decodes one block, and tells why there are no more. -/
def block (capacity : Nat) : Inflating (Option BlockEnd) := do
  let isLast := (← reading (BitReader.take 1)) = 1
  let stop ← match ← reading (BitReader.take 2) with
    | 0 => storedBlock capacity
    | 1 => codedBlock capacity .fixedLiterals .fixedDistances
    | 2 => do
      let (literals, distances) ← reading dynamicCodes
      codedBlock capacity literals distances
    | _ => throw (.deflate .blockType)
  return if stop = .outputFull ∨ isLast then some stop else none

/-- Each block takes at least one bit. -/
theorem strict_block (capacity : Nat) : Strict remaining (block capacity) := by
  have bit : Strict BitReader.remaining (BitReader.take 1) :=
    fun _ _ _ h => by have := BitReader.remaining_take h; omega
  refine (strict_reading bit).bind fun last => ?_
  refine (forward_reading (forward_take _)).bind fun kind => ?_
  dsimp only
  split
  · exact (forward_storedBlock _).bind fun _ => .pure _
  · exact (strict_loop _).forward.bind fun _ => .pure _
  · refine (forward_reading forward_dynamicCodes).bind fun (literals, distances) => ?_
    exact (strict_loop _).forward.bind fun _ => .pure _
  · exact (Forward.throw _).bind fun _ => .pure _

/-- Decodes all blocks up to the last one. -/
def blocks (capacity : Nat) : Inflating BlockEnd :=
  loop (block capacity) (strict_block capacity)

/-- What is left behind by decoding `data` from the start. -/
def decodeAll {α : Type} (x : Inflating α) (data : ByteArray) : Decoded :=
  match x ⟨.ofBytes data .lowFirst, .empty⟩ with
  | .ok _ s => ⟨s.output, .ok ()⟩
  | .error e s => ⟨s.output, .error e⟩

end Inflater

/-- Decodes a deflate stream into at most `capacity` bytes. -/
def inflate (data : ByteArray) (capacity : Nat) : Decoded :=
  Inflater.decodeAll (Inflater.blocks capacity) data

end Apfs
