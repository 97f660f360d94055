import Apfs.Checksum.Adler32
import Apfs.Proofs.Bytes.Folds
import Apfs.Proofs.Checksum.RunningSums

namespace Apfs.Checksum

/-!
# The Adler-32 sums do not overflow

Between two reductions the second sum grows with the square of the number of bytes.  After 5552
bytes of the largest value it has not yet reached `2 ^ 32`, so it is enough to reduce the sums once
for each run of as many bytes.

* `AdlerSums.addByte?`, `AdlerSums.addRuns?` — the additions, given up where one of them overflows.
* `AdlerSums.StandsFor` — sums that are those of the first bytes of a buffer, with the bounds that
  hold some bytes after a reduction.
* `StandsFor.addByte`, `StandsFor.reduce` — one byte more, and a reduction.
* `adler32Bytewise` — the checksum with a reduction after every byte.
* `adler32_eq_sums` — no addition overflows, and the checksum is what its definition says.
-/

/-- The bytes of a buffer as numbers. -/
def byteAt (data : ByteArray) (i : Nat) : Nat := (Bytes.get data i).toNat

namespace AdlerSums

/-! ### Checked additions -/

/-- The sums after one byte more, unless one of the two additions exceeds 32 bits. -/
def addByte? (s : AdlerSums) (b : UInt8) : Option AdlerSums :=
  if s.low.toNat + b.toNat < 2 ^ 32 ∧ s.high.toNat + (s.low.toNat + b.toNat) < 2 ^ 32 then
    some (s.addByte b)
  else none

/-- The sums after the bytes of `data` from offset `i` on, reduced after each run, unless an
    addition exceeds 32 bits. -/
def addRuns? (s : AdlerSums) (data : ByteArray) (i : Nat) : Option AdlerSums :=
  if i < data.size then do
    let t ← data.foldlM addByte? s i (min (i + adlerRun) data.size)
    t.reduce.addRuns? data (i + adlerRun)
  else some s
termination_by data.size - i
decreasing_by simp only [adlerRun]; omega

/-! ### One byte -/

/-- The sums stand for those of the first `n` bytes, the last `k` of which were added without a
    reduction. -/
structure StandsFor (data : ByteArray) (n k : Nat) (s : AdlerSums) : Prop where
  low_mod : s.low.toNat ≡ runningSum 1 (byteAt data) n [MOD 65521]
  high_mod : s.high.toNat ≡ summedSum 1 0 (byteAt data) n [MOD 65521]
  low_le : s.low.toNat ≤ 65520 + 255 * k
  high_le : 2 * s.high.toNat ≤ 2 * 65520 + 2 * 65520 * k + 255 * (k * (k + 1))

variable {data : ByteArray} {n k : Nat} {s : AdlerSums}

/-- The squares that a run can reach. -/
theorem squares_le (h : k ≤ adlerRun) : k * (k + 1) ≤ 5552 * 5553 :=
  Nat.mul_le_mul h (Nat.succ_le_succ h)

/-- Neither addition overflows in a run. -/
theorem StandsFor.lt (h : StandsFor data n k s) (hk : k < adlerRun) (b : UInt8) :
    s.low.toNat + b.toNat < 2 ^ 32 ∧ s.high.toNat + (s.low.toNat + b.toNat) < 2 ^ 32 := by
  have hb := b.toNat_lt
  have hlow := h.low_le
  have hhigh := h.high_le
  have hsquares : (k + 1) * (k + 2) ≤ 5552 * 5553 := squares_le (k := k + 1) hk
  have hk' : k < 5552 := hk
  -- With one byte more the second sum is at most `65520 * (k + 2) + 255 * (k + 1) * (k + 2) / 2`.
  have hnext : (k + 1) * (k + 2) = k * (k + 1) + 2 * (k + 1) := by ring
  omega

/-- **One byte.**  The additions are those of the numbers, and the bounds move on. -/
theorem StandsFor.addByte (h : StandsFor data n k s) (hk : k < adlerRun) :
    s.addByte? (Bytes.get data n) = some (s.addByte (Bytes.get data n)) ∧
      StandsFor data (n + 1) (k + 1) (s.addByte (Bytes.get data n)) := by
  obtain ⟨hlow, hhigh⟩ := h.lt hk (Bytes.get data n)
  have hb := (Bytes.get data n).toNat_lt
  have hlow' : (s.addByte (Bytes.get data n)).low.toNat = s.low.toNat + byteAt data n := by
    show (s.low + (Bytes.get data n).toUInt32).toNat = _
    rw [UInt32.toNat_add, UInt8.toNat_toUInt32, Nat.mod_eq_of_lt hlow]
    rfl
  have hhigh' : (s.addByte (Bytes.get data n)).high.toNat
      = s.high.toNat + (s.low.toNat + byteAt data n) := by
    show (s.high + (s.addByte (Bytes.get data n)).low).toNat = _
    rw [UInt32.toNat_add, hlow']
    exact Nat.mod_eq_of_lt hhigh
  have hbyte : byteAt data n < 256 := hb
  refine ⟨if_pos ⟨hlow, hhigh⟩, ?_, ?_, ?_, ?_⟩
  · rw [hlow', runningSum_succ]
    exact h.low_mod.add_right _
  · rw [hhigh', summedSum_succ, runningSum_succ]
    exact h.high_mod.add (h.low_mod.add_right _)
  · have := h.low_le
    omega
  · have hlast := h.low_le
    have hsum := h.high_le
    have hnext : (k + 1) * (k + 1 + 1) = k * (k + 1) + 2 * (k + 1) := by ring
    omega

/-- **One run.**  By induction on the bytes that are left of it. -/
theorem StandsFor.foldl (h : StandsFor data n k s) {stop : Nat} (hn : n ≤ stop)
    (hstop : stop ≤ data.size) (hrun : k + (stop - n) ≤ adlerRun) :
    data.foldlM addByte? s n stop = some (data.foldl AdlerSums.addByte s n stop) ∧
      StandsFor data stop (k + (stop - n)) (data.foldl AdlerSums.addByte s n stop) := by
  induction hgap : stop - n generalizing s n k with
  | zero =>
    obtain rfl : n = stop := by omega
    rw [Bytes.foldlM_of_le _ _ le_rfl hstop, Bytes.foldl_of_le _ _ le_rfl hstop]
    exact ⟨rfl, h⟩
  | succ gap ih =>
    obtain ⟨hchecked, hnext⟩ := h.addByte (by omega)
    obtain ⟨hrest, hsums⟩ := ih hnext (by omega) (by omega) (by omega)
    rw [Bytes.foldlM_of_lt _ _ (by omega) hstop, Bytes.foldl_of_lt _ _ (by omega) hstop, hchecked]
    exact ⟨hrest, by rwa [Nat.add_right_comm] at hsums⟩

/-! ### Reductions -/

/-- The sums are those of the first `n` bytes, reduced. -/
structure Reduced (data : ByteArray) (n : Nat) (s : AdlerSums) : Prop where
  low_eq : s.low.toNat = runningSum 1 (byteAt data) n % 65521
  high_eq : s.high.toNat = summedSum 1 0 (byteAt data) n % 65521

/-- Before the first byte. -/
theorem reduced_zero (data : ByteArray) : Reduced data 0 ⟨1, 0⟩ := by
  refine ⟨?_, ?_⟩
  · rw [runningSum_zero]
    decide
  · rw [summedSum_zero]
    decide

/-- A reduction brings any sums into range. -/
theorem StandsFor.reduce (h : StandsFor data n k s) : Reduced data n s.reduce where
  low_eq := (UInt32.toNat_mod _ _).trans h.low_mod
  high_eq := (UInt32.toNat_mod _ _).trans h.high_mod

/-- Reduced sums may be the start of a run. -/
theorem Reduced.standsFor (h : Reduced data n s) : StandsFor data n 0 s := by
  obtain ⟨hlow, hhigh⟩ := h
  refine ⟨?_, ?_, ?_, ?_⟩
  · rw [hlow]
    exact Nat.mod_modEq _ _
  · rw [hhigh]
    exact Nat.mod_modEq _ _
  · omega
  · omega

/-- Only one pair of sums is reduced. -/
theorem Reduced.unique {t : AdlerSums} (h : Reduced data n s) (h' : Reduced data n t) : s = t := by
  obtain ⟨low, high⟩ := s
  obtain ⟨low', high'⟩ := t
  have hlow : low = low' := UInt32.toNat_inj.mp (h.low_eq.trans h'.low_eq.symm)
  have hhigh : high = high' := UInt32.toNat_inj.mp (h.high_eq.trans h'.high_eq.symm)
  rw [hlow, hhigh]

/-- **All runs,** the last of which may be partial. -/
theorem Reduced.addRuns {i : Nat} (h : Reduced data (min i data.size) s) :
    addRuns? s data i = some (AdlerSums.addRuns s data i) ∧
      Reduced data data.size (AdlerSums.addRuns s data i) := by
  fun_induction AdlerSums.addRuns s data i with
  | case1 s i hi stop ih =>
    rw [min_eq_left hi.le] at h
    have hstop : stop = min (i + adlerRun) data.size := rfl
    have hle : i ≤ stop := by omega
    obtain ⟨hchecked, hrun⟩ := h.standsFor.foldl hle (by omega) (by omega)
    obtain ⟨hrest, hsums⟩ := ih hrun.reduce
    refine ⟨?_, hsums⟩
    rw [addRuns?, if_pos hi, ← hstop, hchecked, Option.bind_eq_bind, Option.bind_some, hrest]
  | case2 s i hi =>
    rw [min_eq_right (Nat.le_of_not_lt hi)] at h
    rw [addRuns?, if_neg hi]
    exact ⟨rfl, h⟩

/-- The sums after one byte more, reduced at once. -/
def addByteReduced (s : AdlerSums) (b : UInt8) : AdlerSums := (s.addByte b).reduce

/-- Reductions after every byte lead to the same sums. -/
theorem Reduced.addBytesReduced (h : Reduced data n s) (hn : n ≤ data.size) :
    Reduced data data.size (data.foldl addByteReduced s n data.size) := by
  induction hgap : data.size - n generalizing s n with
  | zero =>
    obtain rfl : n = data.size := by omega
    rwa [Bytes.foldl_of_le _ _ le_rfl le_rfl]
  | succ gap ih =>
    rw [Bytes.foldl_of_lt _ _ (by omega) le_rfl]
    exact ih (h.standsFor.addByte (by decide)).2.reduce (by omega) (by omega)

end AdlerSums

/-! ### The checksum -/

/-- The checksum of `data`, with both sums reduced after every byte. -/
def adler32Bytewise (data : ByteArray) : UInt32 :=
  let s := data.foldl AdlerSums.addByteReduced ⟨1, 0⟩
  (s.high <<< 16) ||| s.low

/-- Two halves of 16 bits are put together. -/
theorem toNat_shiftLeft_or {high low : UInt32} (hhigh : high.toNat < 65536)
    (hlow : low.toNat < 65536) : (high <<< 16 ||| low).toNat = high.toNat * 65536 + low.toNat := by
  have hshift : (16 : UInt32).toNat % 32 = 16 := rfl
  rw [UInt32.toNat_or, UInt32.toNat_shiftLeft, hshift, Nat.mod_eq_of_lt,
    ← Nat.shiftLeft_add_eq_or_of_lt hlow, Nat.shiftLeft_eq]
  rw [Nat.shiftLeft_eq]
  omega

/-- **No addition overflows, and the checksum is what its definition says:** the sum of the bytes
    and the sum of the values that it takes, as they are without any reduction before the end.
    Reducing after every byte gives the same. -/
theorem adler32_eq_sums (data : ByteArray) :
    let n := data.size
    let a := (1 + ∑ i ∈ Finset.range n, (Bytes.get data i).toNat) % 65521
    let b := (n + ∑ i ∈ Finset.range n, (n - i) * (Bytes.get data i).toNat) % 65521
    AdlerSums.addRuns? ⟨1, 0⟩ data 0 = some (AdlerSums.addRuns ⟨1, 0⟩ data 0) ∧
      (adler32 data).toNat = b * 65536 + a ∧ a < 65536 ∧ b < 65536 ∧
      adler32 data = adler32Bytewise data := by
  intro n a b
  have ha : a < 65536 := (Nat.mod_lt _ (by decide)).trans (by decide)
  have hb : b < 65536 := (Nat.mod_lt _ (by decide)).trans (by decide)
  have hzero := AdlerSums.reduced_zero data
  obtain ⟨hchecked, hsums⟩ := AdlerSums.Reduced.addRuns (i := 0) (by rwa [Nat.zero_min])
  have hlow : (AdlerSums.addRuns ⟨1, 0⟩ data 0).low.toNat = a := hsums.low_eq
  have hhigh : (AdlerSums.addRuns ⟨1, 0⟩ data 0).high.toNat = b := by
    rw [hsums.high_eq, summedSum, Nat.zero_add, Nat.mul_one]
    rfl
  have hpacked : (adler32 data).toNat = b * 65536 + a := by
    rw [← hhigh, ← hlow]
    exact toNat_shiftLeft_or (hhigh ▸ hb) (hlow ▸ ha)
  have hbytewise : adler32 data = adler32Bytewise data := by
    rw [adler32, adler32Bytewise, hsums.unique (hzero.addBytesReduced (Nat.zero_le _))]
  exact ⟨hchecked, hpacked, ha, hb, hbytewise⟩

end Apfs.Checksum
