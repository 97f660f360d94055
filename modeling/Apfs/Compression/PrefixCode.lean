import Apfs.Compression.BitReader

namespace Apfs

/-!
# Canonical prefix codes

A prefix code given by the length of each symbol's code word.  Code words of one length are
consecutive numbers in the order of their symbols, and shorter code words come before longer
ones, so the number of code words of each length and the sorted symbols are all that is needed to
decode.

* `PrefixCode` — a code; `PrefixCode.ofLengths` builds one and refuses lengths that no code has.
* `PrefixCode.decode` — the symbol whose code word comes next in a bit reader.
* `PrefixCode.fixedLiterals`, `PrefixCode.fixedDistances` — the codes of deflate's fixed blocks.
-/

/-- A canonical prefix code. -/
structure PrefixCode where
  /-- The number of code words of length 1, 2, … up to the longest. -/
  counts : List Nat
  /-- The symbols that have a code word, by its length and then by value. -/
  symbols : Array Nat

namespace PrefixCode

/-- The longest code word. -/
def maxLength : Nat := 15

/-! ### Building -/

/-- The symbols whose code words have the given length, in order.  Symbol `i` has the `i`-th of
    the lengths. -/
def symbolsOfLength (lengths : List Nat) (length : Nat) : List Nat :=
  lengths.zipIdx.filterMap fun (l, symbol) => if l = length then some symbol else none

/-- The code in which symbol `i` has a code word of the `i`-th length, or none if that is 0. -/
def build (lengths : List Nat) : PrefixCode where
  counts := (List.range maxLength).map fun i => lengths.count (i + 1)
  symbols := ((List.range maxLength).flatMap fun i => symbolsOfLength lengths (i + 1)).toArray

/-- Whether `free` code words of one length leave room, length by length, for as many longer ones
    as `counts` says. -/
def hasRoom : (free : Nat) → (counts : List Nat) → Bool
  | _, [] => true
  | free, count :: counts => count ≤ 2 * free && hasRoom (2 * free - count) counts

/-- The code with the given lengths.  Lengths that leave some bit strings without a symbol are
    accepted. -/
def ofLengths (lengths : List Nat) : Except Error PrefixCode :=
  if 65535 < lengths.length then .error (.argument .symbolCount)
  else if lengths.any (maxLength < ·) then .error (.prefixCode .lengthTooLong)
  else
    let code := build lengths
    if hasRoom 1 code.counts then .ok code else .error (.prefixCode .overSubscribed)

/-- The number of symbols that have a code word. -/
def size (code : PrefixCode) : Nat := code.symbols.size

/-! ### Decoding -/

/-- Decodes bit by bit.  Before each length, `prior` is the code word read so far with a zero
    after it, `first` is the least code word of that length, and `index` is the place of its
    symbol. -/
def decodeFrom (symbols : Array Nat) (prior first index : Nat) : List Nat → BitReading Nat
  | [] => throw (.prefixCode .undefinedCode)
  | count :: counts => do
    let word := prior + (← BitReader.take 1)
    if word < first + count then
      return symbols.getD (index + (word - first)) 0
    else
      decodeFrom symbols (2 * word) (2 * (first + count)) (index + count) counts

/-- The symbol whose code word comes next. -/
def decode (code : PrefixCode) : BitReading Nat :=
  decodeFrom code.symbols 0 0 0 code.counts

/-! ### The codes of fixed blocks -/

/-- The literal and length code of fixed blocks. -/
def fixedLiterals : PrefixCode :=
  build (List.replicate 144 8 ++ List.replicate 112 9 ++ List.replicate 24 7 ++ List.replicate 8 8)

/-- The distance code of fixed blocks.  Its last two code words stand for no distance. -/
def fixedDistances : PrefixCode :=
  build (List.replicate 32 5)

/-! ### What is consumed -/

theorem remaining_decodeFrom_lt {symbols : Array Nat} {prior first index s : Nat}
    {counts : List Nat} {r r' : BitReader}
    (h : decodeFrom symbols prior first index counts r = .ok s r') :
    r'.remaining < r.remaining := by
  induction counts generalizing prior first index r with
  | nil => contradiction
  | cons count counts ih =>
    simp only [decodeFrom, bind, EStateM.bind] at h
    split at h
    next v r₁ ht =>
      have hr := BitReader.remaining_take ht
      split at h
      · injection h with _ h
        subst h
        omega
      · have := ih h
        omega
    next => contradiction

/-- Decoding a symbol consumes at least one bit. -/
theorem remaining_decode_lt {code : PrefixCode} {s : Nat} {r r' : BitReader}
    (h : code.decode r = .ok s r') : r'.remaining < r.remaining :=
  remaining_decodeFrom_lt h

end PrefixCode

end Apfs
