import Apfs.Compression.InPlace.WordReader
import Apfs.Compression.PrefixCode

namespace Apfs

/-!
# Prefix codes as tables

A table of the number of code words of each length, and of the symbols in the order of their code
words.  The symbols are put in that order by counting: those of each length get a range of places,
and each symbol goes to the next free place in the range of its length.

* `CodeTable` — a table; `CodeTable.ofLengths` fills one and refuses lengths that no code has.
* `CodeTable.decode` — the symbol whose code word comes next in a reader.
* `CodeTable.fixedLiterals`, `CodeTable.fixedDistances` — the tables of deflate's fixed blocks.
-/

/-- A prefix code. -/
structure CodeTable where
  /-- The number of code words of each length from 0 on.  There are none of length 0. -/
  counts : Array Nat
  /-- The symbols that have a code word, by its length and then by value. -/
  symbols : Array Nat

namespace CodeTable

/-! ### Filling a table -/

/-- How often each length occurs, not counting 0. -/
def countLengths (lengths : List Nat) : Except Stop (Array Nat) := do
  let counts ← lengths.foldlM (fun counts l => do writeAt counts l ((← readAt counts l) + 1))
    (Array.replicate (PrefixCode.maxLength + 1) 0)
  writeAt counts 0 0

/-- The first place of the symbols of each length, and last the number of all places. -/
def firstPlaces (counts : Array Nat) : Except Stop (Array Nat) :=
  (List.range' 1 PrefixCode.maxLength).foldlM
    (fun places l => do writeAt places (l + 1) ((← readAt places l) + (← readAt counts l)))
    (Array.replicate (PrefixCode.maxLength + 2) 0)

/-- Puts a symbol to the next place for its length, if that is not 0. -/
def place (tables : Array Nat × Array Nat) (entry : Nat × Nat) :
    Except Stop (Array Nat × Array Nat) := do
  let (symbols, places) := tables
  let (l, symbol) := entry
  if l = 0 then return tables
  let slot ← readAt places l
  return (← writeAt symbols slot symbol, ← writeAt places l (slot + 1))

/-- The table of the code in which symbol `i` has a code word of the `i`-th length, or none if that
    is 0. -/
def build (lengths : List Nat) : Except Stop CodeTable := do
  let counts ← countLengths lengths
  let places ← firstPlaces counts
  let symbols := Array.replicate (← readAt places (PrefixCode.maxLength + 1)) 0
  let (symbols, _) ← lengths.zipIdx.foldlM place (symbols, places)
  return { counts, symbols }

/-- The table of the code with the given lengths.  Lengths that leave some bit strings without a
    symbol are accepted. -/
def ofLengths (lengths : List Nat) : Except Stop CodeTable := do
  if 65535 < lengths.length then fail (.argument .symbolCount)
  else if lengths.any (PrefixCode.maxLength < ·) then fail (.prefixCode .lengthTooLong)
  else
    let table ← build lengths
    if PrefixCode.hasRoom 1 (table.counts.toList.drop 1) then return table
    else fail (.prefixCode .overSubscribed)

/-! ### Decoding -/

/-- Decodes bit by bit.  Before each length, `word` is the code word read so far with a zero after
    it, `first` is the least code word of that length, and `index` is the place of its symbol. -/
def decodeFrom (symbols : Array Nat) (word first index : Nat) : List Nat → WordReading Nat
  | [] => fail (.prefixCode .undefinedCode)
  | count :: counts => do
    let word := word ||| (← WordReader.take 1).toNat
    if word < first + count then readAt symbols (← minus (index + word) first)
    else decodeFrom symbols (word <<< 1) ((first + count) <<< 1) (index + count) counts

/-- The symbol whose code word comes next. -/
def decode (table : CodeTable) : WordReading Nat :=
  decodeFrom table.symbols 0 0 0 (table.counts.toList.drop 1)

/-! ### The tables of fixed blocks -/

/-- The literal and length code of fixed blocks. -/
def fixedLiterals : Except Stop CodeTable :=
  build (List.replicate 144 8 ++ List.replicate 112 9 ++ List.replicate 24 7 ++ List.replicate 8 8)

/-- The distance code of fixed blocks. -/
def fixedDistances : Except Stop CodeTable :=
  build (List.replicate 32 5)

end CodeTable

end Apfs
