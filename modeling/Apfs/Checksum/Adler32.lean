namespace Apfs.Checksum

/-!
# Adler-32

Two sums modulo 65521: one of the bytes, starting at 1, and one of the values the first takes.
The sums are reduced once for each run of 5552 bytes, the longest that cannot overflow a 32-bit
word between two reductions.

* `AdlerSums` — the two sums; `AdlerSums.addByte` adds a byte without reducing.
* `AdlerSums.addRuns` — the reduced sums after a buffer.
* `adler32` — the checksum: the second sum in the high half, the first in the low half.
-/

/-- The modulus of both sums, the largest prime below `2 ^ 16`. -/
def adlerModulus : UInt32 := 65521

/-- The number of bytes between two reductions. -/
def adlerRun : Nat := 5552

/-- The two running sums. -/
structure AdlerSums where
  /-- One more than the sum of the bytes. -/
  low : UInt32
  /-- The sum of the values of `low`. -/
  high : UInt32
deriving DecidableEq

namespace AdlerSums

/-- The sums after one byte more, not reduced. -/
def addByte (s : AdlerSums) (b : UInt8) : AdlerSums :=
  let low := s.low + b.toUInt32
  ⟨low, s.high + low⟩

/-- Both sums modulo 65521. -/
def reduce (s : AdlerSums) : AdlerSums :=
  ⟨s.low % adlerModulus, s.high % adlerModulus⟩

/-- The sums after the bytes of `data` from offset `i` on, reduced after each run. -/
def addRuns (s : AdlerSums) (data : ByteArray) (i : Nat) : AdlerSums :=
  if i < data.size then
    let stop := min (i + adlerRun) data.size
    (data.foldl addByte s i stop).reduce.addRuns data (i + adlerRun)
  else s
termination_by data.size - i
decreasing_by simp only [adlerRun]; omega

end AdlerSums

/-- The checksum of `data`. -/
def adler32 (data : ByteArray) : UInt32 :=
  let s := AdlerSums.addRuns ⟨1, 0⟩ data 0
  (s.high <<< 16) ||| s.low

end Apfs.Checksum
