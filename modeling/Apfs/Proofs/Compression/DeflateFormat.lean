import Apfs.Proofs.Compression.CanonicalCode

namespace Apfs.Deflate

/-!
# The deflate format

What a deflate stream is, without reference to a decoder: the bytes that a sequence of blocks
stands for, and the bits that stand for a sequence of blocks.  Numbers are written with the least
significant bit first, code words with the most significant bit first.

* `Token`, `Block` — the contents of a stream.
* `expand` — the bytes that blocks stand for, if all copies are of bytes that are there.
* `TokensBits`, `CodesBits`, `BlockBits`, `StreamBits` — the bits that stand for tokens, for the
  codes of a dynamic block, for a block and for a stream.
* `Encodes` — a byte string starts with the bits of a stream.
-/

/-! ### Contents -/

/-- A part of a coded block. -/
inductive Token where
  /-- A single byte. -/
  | literal (b : UInt8)
  /-- Bytes that are the same as those `distance` before them. -/
  | copy (length distance : Nat)

/-- A block of a stream. -/
inductive Block where
  /-- Bytes as they are. -/
  | stored (bytes : List UInt8)
  /-- Tokens in the code that is fixed by the format. -/
  | fixed (tokens : List Token)
  /-- Tokens in codes with the given code lengths. -/
  | dynamic (literals distances : List Nat) (tokens : List Token)

/-- The last `distance` bytes, repeated as often as necessary. -/
def repeated (out : List UInt8) (distance length : Nat) : List UInt8 :=
  (List.range length).map fun i => out.getD (out.length - distance + i % distance) 0

/-- The bytes after a token, given those before it. -/
def Token.expand (out : List UInt8) : Token → Option (List UInt8)
  | .literal b => some (out ++ [b])
  | .copy length distance =>
    if distance ≤ out.length then some (out ++ repeated out distance length) else none

/-- The bytes after some tokens, given those before them. -/
def expandTokens (out : List UInt8) (tokens : List Token) : Option (List UInt8) :=
  tokens.foldlM Token.expand out

/-- The bytes after a block, given those before it. -/
def Block.expand (out : List UInt8) : Block → Option (List UInt8)
  | .stored bytes => some (out ++ bytes)
  | .fixed tokens => expandTokens out tokens
  | .dynamic _ _ tokens => expandTokens out tokens

/-- The bytes after some blocks, given those before them. -/
def expandFrom (out : List UInt8) (blocks : List Block) : Option (List UInt8) :=
  blocks.foldlM Block.expand out

/-- The bytes that blocks stand for, if no copy reaches back before the first byte. -/
def expand (blocks : List Block) : Option (List UInt8) := expandFrom [] blocks

/-! ### Tokens -/

/-- The least length that the symbol `257 + i` stands for, and the number of bits that follow it to
    tell the length.  Eight lengths have symbols of their own; then come groups of four symbols
    with one bit more than those before them.  The greatest length has a symbol of its own again,
    although the symbol before it reaches as far. -/
def lengthRange (i : Nat) : Option (Nat × Nat) :=
  if i < 8 then some (3 + i, 0)
  else if i < 28 then some (3 + (4 + i % 4) * 2 ^ ((i - 4) / 4), (i - 4) / 4)
  else if i = 28 then some (258, 0)
  else none

/-- The least distance that a distance symbol stands for, and the number of bits that follow it to
    tell the distance.  Two distances have symbols of their own; then come groups of two symbols
    with one bit more than those before them. -/
def distanceRange (j : Nat) : Option (Nat × Nat) :=
  if j < 2 then some (1 + j, 0)
  else if j < 30 then some (1 + (2 + j % 2) * 2 ^ ((j - 2) / 2), (j - 2) / 2)
  else none

/-- The bits that tell which value of a range is meant. -/
def RangeBits (range : Option (Nat × Nat)) (value : Nat) (w : List Bool) : Prop :=
  ∃ base, range = some (base, w.length) ∧ value = base + ofLowBits w

/-- The bits of a token, in codes with the given lengths. -/
def TokenBits (literals distances : List Nat) : Token → List Bool → Prop
  | .literal b, w => CodeWord literals b.toNat w
  | .copy length distance, w => ∃ i j word extra word' extra',
    CodeWord literals (257 + i) word ∧ RangeBits (lengthRange i) length extra ∧
      CodeWord distances j word' ∧ RangeBits (distanceRange j) distance extra' ∧
      w = word ++ (extra ++ (word' ++ extra'))

/-- The bits of tokens up to the end of their block. -/
inductive TokensBits (literals distances : List Nat) : List Token → List Bool → Prop
  /-- The code word of 256 ends a block. -/
  | nil {w : List Bool} : CodeWord literals 256 w → TokensBits literals distances [] w
  /-- A token is followed by others. -/
  | cons {token : Token} {tokens : List Token} {u v : List Bool} :
    TokenBits literals distances token u → TokensBits literals distances tokens v →
      TokensBits literals distances (token :: tokens) (u ++ v)

/-! ### Codes -/

/-- The order in which the lengths of the code length code are sent: first the symbols of runs and
    0, then lengths further and further from 8. -/
def codeLengthOrder : List Nat :=
  [16, 17, 18, 0] ++ (List.range 7).flatMap (fun k => [8 + k, 7 - k]) ++ [15]

/-- The code lengths of the code length code of which those in `sent` are sent. -/
def codeLengthCode (sent : List Nat) : List Nat :=
  (List.range 19).map fun symbol => (sent[codeLengthOrder.idxOf symbol]?).getD 0

/-- The bits of a run of code lengths, given those before it. -/
inductive RunBits (code before : List Nat) : List Nat → List Bool → Prop
  /-- A single length stands for itself. -/
  | single {l : Nat} {w : List Bool} : l ≤ 15 → CodeWord code l w → RunBits code before [l] w
  /-- The length before is repeated three to six times. -/
  | previous {l : Nat} {w v : List Bool} : before.getLast? = some l → CodeWord code 16 w →
    v.length = 2 → RunBits code before (List.replicate (3 + ofLowBits v) l) (w ++ v)
  /-- Zero is repeated three to ten times. -/
  | zeros {w v : List Bool} : CodeWord code 17 w → v.length = 3 →
    RunBits code before (List.replicate (3 + ofLowBits v) 0) (w ++ v)
  /-- Zero is repeated eleven to 138 times. -/
  | manyZeros {w v : List Bool} : CodeWord code 18 w → v.length = 7 →
    RunBits code before (List.replicate (11 + ofLowBits v) 0) (w ++ v)

/-- The bits of code lengths in runs, given those before them. -/
inductive LengthsBits (code : List Nat) : (before lengths : List Nat) → List Bool → Prop
  /-- There are no more lengths. -/
  | nil {before : List Nat} : LengthsBits code before [] []
  /-- A run is followed by others. -/
  | run {before run lengths : List Nat} {u v : List Bool} : RunBits code before run u →
    LengthsBits code (before ++ run) lengths v →
      LengthsBits code before (run ++ lengths) (u ++ v)

/-- The bits of the codes at the head of a dynamic block: how many lengths there are of each kind,
    the lengths of the code length code, and the other lengths in that code, as one sequence. -/
def CodesBits (literals distances : List Nat) (w : List Bool) : Prop :=
  ∃ sent u, (257 ≤ literals.length ∧ literals.length ≤ 286) ∧
    (1 ≤ distances.length ∧ distances.length ≤ 30) ∧
    (4 ≤ sent.length ∧ sent.length ≤ 19 ∧ ∀ l ∈ sent, l < 8) ∧
    Admissible (codeLengthCode sent) ∧ Admissible literals ∧ Admissible distances ∧
    literals.getD 256 0 ≠ 0 ∧ LengthsBits (codeLengthCode sent) [] (literals ++ distances) u ∧
    w = lowBits 5 (literals.length - 257) ++ (lowBits 5 (distances.length - 1) ++
      (lowBits 4 (sent.length - 4) ++ (sent.flatMap (lowBits 3) ++ u)))

/-! ### Blocks -/

/-- The code lengths of the literal and length code of fixed blocks. -/
def fixedLiterals : List Nat :=
  List.replicate 144 8 ++ List.replicate 112 9 ++ List.replicate 24 7 ++ List.replicate 8 8

/-- The code lengths of the distance code of fixed blocks. -/
def fixedDistances : List Nat := List.replicate 32 5

/-- The bits of a block that starts after `p` bits.  Stored bytes start at a byte boundary, with
    their number and its complement before them; the bits up to there may be anything. -/
def BlockBits (p : Nat) : Block → List Bool → Prop
  | .stored bytes, w => ∃ pad, pad.length = padding (p + 2) ∧ bytes.length < 2 ^ 16 ∧
    w = [false, false] ++ (pad ++ (lowBits 16 bytes.length ++
      (lowBits 16 (2 ^ 16 - 1 - bytes.length) ++ BitOrder.lowFirst.bitsOf bytes)))
  | .fixed tokens, w => ∃ v, TokensBits fixedLiterals fixedDistances tokens v ∧
    w = [true, false] ++ v
  | .dynamic literals distances tokens, w => ∃ u v, CodesBits literals distances u ∧
    TokensBits literals distances tokens v ∧ w = [false, true] ++ (u ++ v)

/-- The bits of a stream that starts after `p` bits.  The bit before a block tells whether it is
    the last one. -/
inductive StreamBits : (p : Nat) → List Block → List Bool → Prop
  /-- The last block is marked. -/
  | last {p : Nat} {block : Block} {w : List Bool} : BlockBits (p + 1) block w →
    StreamBits p [block] (true :: w)
  /-- A block that is not marked is followed by others. -/
  | more {p : Nat} {block : Block} {blocks : List Block} {u v : List Bool} :
    BlockBits (p + 1) block u → StreamBits (p + 1 + u.length) blocks v →
      StreamBits p (block :: blocks) (false :: (u ++ v))

/-- The bytes of `data` from a bit on start with the bits of the blocks. -/
def EncodesFrom (p : Nat) (data : ByteArray) (blocks : List Block) : Prop :=
  ∃ w, StreamBits p blocks w ∧ w <+: (BitOrder.lowFirst.stream data).drop p

/-- The bytes of `data` start with the bits of the blocks. -/
def Encodes (data : ByteArray) (blocks : List Block) : Prop := EncodesFrom 0 data blocks

end Apfs.Deflate
