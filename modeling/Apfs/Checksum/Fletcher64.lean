import Apfs.Error

namespace Apfs.Checksum

/-!
# Fletcher-64

Two running sums over little-endian 32-bit words, reduced modulo `2 ^ 32 - 1` after each word:
the lower sum adds the words, the upper one adds the lower sums.  The result is chosen so that
running the sums on over its two halves brings both to zero.

* `FletcherSums` — the two sums.
* `FletcherSums.ofSeed`, `FletcherSums.addWords`, `FletcherSums.checksum` — the sums packed in a
  seed, the sums after a buffer, and the checksum they give.
* `fletcher64` — the checksum of a buffer whose length is a multiple of 4.
-/

/-- The modulus of both sums. -/
def fletcherModulus : UInt64 := 0xffffffff

/-- The two running sums. -/
structure FletcherSums where
  /-- The sum of the words. -/
  lower : UInt64
  /-- The sum of the lower sums. -/
  upper : UInt64
deriving DecidableEq

namespace FletcherSums

/-- The sums packed in a seed: the lower one in its low half, the upper one in its high half. -/
def ofSeed (seed : UInt64) : FletcherSums := ⟨seed &&& 0xffffffff, seed >>> 32⟩

/-- The sums after one word more. -/
def addWord (s : FletcherSums) (word : UInt64) : FletcherSums :=
  let lower := (s.lower + word) % fletcherModulus
  ⟨lower, (s.upper + lower) % fletcherModulus⟩

/-- The sums after the whole words of `data` from offset `i` on. -/
def addWords (s : FletcherSums) (data : ByteArray) (i : Nat) : FletcherSums :=
  if h : i + 4 ≤ data.size then
    let word := data[i].toUInt64 ||| (data[i + 1].toUInt64 <<< 8)
      ||| (data[i + 2].toUInt64 <<< 16) ||| (data[i + 3].toUInt64 <<< 24)
    (s.addWord word).addWords data (i + 4)
  else s
termination_by data.size - i

/-- The checksum that the sums give. -/
def checksum (s : FletcherSums) : UInt64 :=
  let low := fletcherModulus - (s.lower + s.upper) % fletcherModulus
  let high := fletcherModulus - (s.lower + low) % fletcherModulus
  (high <<< 32) ||| low

end FletcherSums

/-- The checksum of `data`, with the sums starting at those packed in `seed`. -/
def fletcher64 (data : ByteArray) (seed : UInt64) : Except Error UInt64 :=
  if data.size % 4 = 0 then .ok ((FletcherSums.ofSeed seed).addWords data 0).checksum
  else .error (.argument .checksumLength)

end Apfs.Checksum
