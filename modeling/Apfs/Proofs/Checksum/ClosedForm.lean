import Apfs.Proofs.Checksum.Fletcher64
import Apfs.Proofs.Checksum.RunningSums

namespace Apfs.Checksum

/-!
# Fletcher-64 in closed form

The sums are reduced after every word, and what comes out is what sums without any reduction would
give.  So a checksum can be taken up after some words with the sums that they left, and the two
halves of the result bring both sums to zero.

* `FletcherSums.addWord?`, `FletcherSums.addWords?`, `FletcherSums.checksum?`, `fletcher64?` — the
  computation, given up where a sum overflows or a difference is negative.
* `packed` — two halves as one number.
* `FletcherSums.afterWords_modEq` — the sums after some words, without any reduction.
* `FletcherSums.checksum_eq_packed` — the checksum of sums that are known up to congruence.
* `FletcherSums.addWord_halves` — the halves of a checksum as words.
* `fletcher64_eq_sums` — the checksum of a buffer.
-/

/-! ### Checked steps -/

/-- Four bytes in a row as a word. -/
def wordAt (data : ByteArray) (i : Nat) (h : i + 3 < data.size) : UInt64 :=
  data[i].toUInt64 ||| (data[i + 1].toUInt64 <<< 8)
    ||| (data[i + 2].toUInt64 <<< 16) ||| (data[i + 3].toUInt64 <<< 24)

namespace FletcherSums

/-- The sums after one word more, unless one of the two additions exceeds 64 bits. -/
def addWord? (s : FletcherSums) (word : UInt64) : Option FletcherSums :=
  if s.lower.toNat + word.toNat < 2 ^ 64 ∧
      s.upper.toNat + (s.addWord word).lower.toNat < 2 ^ 64 then
    some (s.addWord word)
  else none

/-- The sums after the whole words of `data` from offset `i` on, unless an addition exceeds 64
    bits. -/
def addWords? (s : FletcherSums) (data : ByteArray) (i : Nat) : Option FletcherSums :=
  if h : i + 4 ≤ data.size then do
    let t ← s.addWord? (wordAt data i h)
    t.addWords? data (i + 4)
  else some s
termination_by data.size - i

/-- The checksum that the sums give, unless an addition exceeds 64 bits or more is subtracted than
    there is. -/
def checksum? (s : FletcherSums) : Option UInt64 :=
  let low := fletcherModulus - (s.lower + s.upper) % fletcherModulus
  if s.lower.toNat + s.upper.toNat < 2 ^ 64 ∧
      (s.lower + s.upper) % fletcherModulus ≤ fletcherModulus ∧
      s.lower.toNat + low.toNat < 2 ^ 64 ∧ (s.lower + low) % fletcherModulus ≤ fletcherModulus then
    some s.checksum
  else none

end FletcherSums

/-- The checksum of whole words, unless a number on the way does not fit. -/
def fletcher64? (data : ByteArray) (seed : UInt64) : Option UInt64 := do
  let s ← (FletcherSums.ofSeed seed).addWords? data 0
  s.checksum?

namespace FletcherSums

variable {data : ByteArray} {s : FletcherSums}

theorem toNat_wordAt_lt {i : Nat} (h : i + 3 < data.size) :
    (wordAt data i h).toNat < 4294967296 := by
  have h0 := data[i].toNat_lt
  have h1 := data[i + 1].toNat_lt
  have h2 := data[i + 2].toNat_lt
  have h3 := data[i + 3].toNat_lt
  rw [wordAt, toNat_fourBytes]
  omega

/-- Sums in range take any word. -/
theorem addWord?_eq (hs : s.InRange) {word : UInt64} (hword : word.toNat < 4294967296) :
    s.addWord? word = some (s.addWord word) ∧ (s.addWord word).InRange := by
  have hnext : (s.addWord word).InRange := by
    rw [← UInt64.ofNat_toNat (x := word)]
    exact inRange_addWord hs hword
  refine ⟨if_pos ?_, hnext⟩
  obtain ⟨hlower, hupper⟩ := hs
  have hnextLower := hnext.1
  omega

/-- **All words.**  The sums stay in range, so no addition overflows. -/
theorem addWords?_eq (hs : s.InRange) (i : Nat) :
    s.addWords? data i = some (s.addWords data i) ∧ (s.addWords data i).InRange := by
  fun_induction addWords s data i with
  | case1 s i h word ih =>
    obtain ⟨hchecked, hnext⟩ := addWord?_eq hs (toNat_wordAt_lt h)
    obtain ⟨hrest, hsums⟩ := ih hnext
    refine ⟨?_, hsums⟩
    rw [addWords?, dif_pos h, hchecked, Option.bind_eq_bind, Option.bind_some]
    exact hrest
  | case2 s i h =>
    rw [addWords?, dif_neg h]
    exact ⟨rfl, hs⟩

/-- The checksum of sums in range can be computed. -/
theorem checksum?_eq (hs : s.InRange) : s.checksum? = some s.checksum := by
  obtain ⟨hlower, hupper⟩ := hs
  have hmod (x : UInt64) : x % fletcherModulus ≤ fletcherModulus := by
    rw [UInt64.le_iff_toNat_le, UInt64.toNat_mod]
    exact (Nat.mod_lt _ (by decide)).le
  have hlow : (fletcherModulus - (s.lower + s.upper) % fletcherModulus).toNat ≤ 4294967295 := by
    rw [UInt64.toNat_sub_of_le _ _ (hmod _)]
    exact Nat.sub_le _ _
  refine if_pos ⟨?_, hmod _, ?_, hmod _⟩ <;> omega

end FletcherSums

/-! ### Halves -/

/-- Two halves as one number. -/
def packed (low high : Nat) : UInt64 := (UInt64.ofNat high <<< 32) ||| UInt64.ofNat low

theorem toNat_packed {low high : Nat} (hlow : low < 2 ^ 32) (hhigh : high < 2 ^ 32) :
    (packed low high).toNat = low + high * 2 ^ 32 := by
  have hofNat {x : Nat} (hx : x < 2 ^ 32) : (UInt64.ofNat x).toNat = x :=
    UInt64.toNat_ofNat_of_lt (by show x < 2 ^ 64; omega)
  rw [packed, UInt64.or_comm, @toNat_or_shiftLeft _ _ 32 32 rfl, hofNat hlow, hofNat hhigh]
  · rwa [hofNat hlow]
  · rw [hofNat hhigh]
    omega
  · decide

/-- What is missing from both sums together to a multiple of the modulus. -/
def lowHalf (lower upper : Nat) : Nat := 4294967295 - (lower + upper) % 4294967295

/-- What is then missing from the lower sum to a multiple of the modulus. -/
def highHalf (lower upper : Nat) : Nat :=
  4294967295 - (lower + lowHalf lower upper) % 4294967295

theorem lowHalf_lt (lower upper : Nat) : lowHalf lower upper < 2 ^ 32 :=
  (Nat.sub_le _ _).trans_lt (by decide)

theorem highHalf_lt (lower upper : Nat) : highHalf lower upper < 2 ^ 32 :=
  (Nat.sub_le _ _).trans_lt (by decide)

namespace FletcherSums

variable {s : FletcherSums} {w : Nat → Nat}

/-- A seed holds the sums in its halves. -/
theorem toNat_ofSeed (seed : UInt64) :
    (ofSeed seed).lower.toNat = seed.toNat % 2 ^ 32 ∧
      (ofSeed seed).upper.toNat = seed.toNat / 2 ^ 32 := by
  refine ⟨?_, ?_⟩
  · show (seed &&& 0xffffffff).toNat = _
    rw [UInt64.toNat_and]
    exact Nat.and_two_pow_sub_one_eq_mod _ 32
  · show (seed >>> 32).toNat = _
    rw [UInt64.toNat_shiftRight, Nat.shiftRight_eq_div_pow]
    rfl

/-! ### Sums without reductions -/

/-- The sums after `n` words are those that need no reduction, up to congruence. -/
theorem afterWords_modEq (hs : s.InRange) (hw : ∀ i, w i < 4294967296) (n : Nat) :
    (s.afterWords w n).lower.toNat ≡ runningSum s.lower.toNat w n [MOD 4294967295] ∧
      (s.afterWords w n).upper.toNat
        ≡ summedSum s.lower.toNat s.upper.toNat w n [MOD 4294967295] := by
  induction n with
  | zero =>
    rw [runningSum_zero, summedSum_zero]
    exact ⟨rfl, rfl⟩
  | succ n ih =>
    obtain ⟨hlower, hupper⟩ := toNat_addWord (inRange_afterWords hs hw n) (hw n)
    have hsum : ((s.afterWords w n).lower.toNat + w n) % 4294967295
        ≡ runningSum s.lower.toNat w (n + 1) [MOD 4294967295] := by
      rw [runningSum_succ]
      exact (Nat.mod_modEq _ _).trans (ih.1.add_right _)
    rw [afterWords, hlower, hupper]
    refine ⟨hsum, ?_⟩
    rw [summedSum_succ]
    exact (Nat.mod_modEq _ _).trans (ih.2.add hsum)

section

variable {lower upper : Nat} (hs : s.InRange) (hlower : s.lower.toNat ≡ lower [MOD 4294967295])
  (hupper : s.upper.toNat ≡ upper [MOD 4294967295])

include hs hlower hupper

/-- **The checksum** needs the sums up to congruence only. -/
theorem checksum_eq_packed : s.checksum = packed (lowHalf lower upper) (highHalf lower upper) := by
  obtain ⟨low, high, hchecksum, hlow, hhigh⟩ := toNat_checksum hs
  have htotal : (s.lower.toNat + s.upper.toNat) % 4294967295 = (lower + upper) % 4294967295 :=
    hlower.add hupper
  have hlow' : low = lowHalf lower upper := by
    rw [hlow, htotal, lowHalf]
  have hrest : (s.lower.toNat + low) % 4294967295 = (lower + lowHalf lower upper) % 4294967295 :=
    hlow' ▸ hlower.add_right low
  have hhigh' : high = highHalf lower upper := by
    rw [hhigh, hrest, highHalf]
  apply UInt64.toNat_inj.mp
  rw [hchecksum, hlow', hhigh', toNat_packed (lowHalf_lt _ _) (highHalf_lt _ _)]

/-- **The halves of the checksum,** taken as two words more, bring both sums to zero. -/
theorem addWord_halves :
    (s.addWord (UInt64.ofNat (lowHalf lower upper))).addWord (UInt64.ofNat (highHalf lower upper))
      = ⟨0, 0⟩ := by
  have hlow := lowHalf_lt lower upper
  have hhigh := highHalf_lt lower upper
  obtain ⟨hfirst, hfirst'⟩ := toNat_addWord hs hlow
  obtain ⟨hlast, hlast'⟩ := toNat_addWord (inRange_addWord hs hlow) hhigh
  unfold Nat.ModEq at hlower hupper
  rw [hfirst] at hlast
  rw [hfirst, hfirst'] at hlast'
  -- The high half completes the lower sum, and so the upper sum is what it was before.
  have hzero : ((s.lower.toNat + lowHalf lower upper) % 4294967295 + highHalf lower upper)
      % 4294967295 = 0 := by
    unfold highHalf
    omega
  rw [hzero] at hlast hlast'
  have hzero' : ((s.upper.toNat + (s.lower.toNat + lowHalf lower upper) % 4294967295) % 4294967295
      + 0) % 4294967295 = 0 := by
    unfold lowHalf
    omega
  rw [hzero'] at hlast'
  generalize (s.addWord _).addWord _ = t at hlast hlast'
  obtain ⟨first, second⟩ := t
  have hfirst : first = 0 := UInt64.toNat_inj.mp hlast
  have hsecond : second = 0 := UInt64.toNat_inj.mp hlast'
  rw [hfirst, hsecond]

end

end FletcherSums

/-! ### The checksum of a buffer -/

section

variable {data : ByteArray} {n : Nat} {seed : UInt64} (hsize : data.size = 4 * n)

include hsize

theorem addWords_zero :
    (FletcherSums.ofSeed seed).addWords data 0
      = (FletcherSums.ofSeed seed).afterWords (word data) n := by
  have hsums := FletcherSums.addWords_eq hsize (.ofSeed seed) (Nat.zero_le n)
  rwa [FletcherSums.afterWords, Nat.mul_zero] at hsums

variable {a b : Nat} (ha : seed.toNat % 2 ^ 32 ≡ a [MOD 4294967295])
  (hb : seed.toNat / 2 ^ 32 ≡ b [MOD 4294967295])

include ha hb

/-- The sums after a buffer are those that need no reduction, from any congruent start. -/
theorem addWords_modEq :
    ((FletcherSums.ofSeed seed).addWords data 0).lower.toNat
        ≡ runningSum a (word data) n [MOD 4294967295] ∧
      ((FletcherSums.ofSeed seed).addWords data 0).upper.toNat
        ≡ summedSum a b (word data) n [MOD 4294967295] := by
  obtain ⟨hseed, hseed'⟩ := FletcherSums.toNat_ofSeed seed
  obtain ⟨hlower, hupper⟩ :=
    FletcherSums.afterWords_modEq (FletcherSums.inRange_ofSeed seed) (word_lt data) n
  rw [addWords_zero hsize]
  rw [hseed] at hlower hupper
  rw [hseed'] at hupper
  exact ⟨hlower.trans (runningSum_modEq _ ha n), hupper.trans (summedSum_modEq _ ha hb n)⟩

/-- The checksum of a buffer in closed form. -/
theorem fletcher64_eq_packed :
    fletcher64 data seed = .ok (packed
      (lowHalf (runningSum a (word data) n) (summedSum a b (word data) n))
      (highHalf (runningSum a (word data) n) (summedSum a b (word data) n))) := by
  obtain ⟨hlower, hupper⟩ := addWords_modEq hsize ha hb
  have hrange := (@FletcherSums.addWords?_eq data _ (FletcherSums.inRange_ofSeed seed) 0).2
  rw [fletcher64, if_pos (by omega), FletcherSums.checksum_eq_packed hrange hlower hupper]

end

/-- **Continuing.**  A checksum can be taken up after some words, with their reduced sums as the
    seed. -/
theorem fletcher64_extract {data : ByteArray} {n m : Nat} (hsize : data.size = 4 * n) (hm : m ≤ n)
    (seed : UInt64) :
    let a := seed.toNat % 2 ^ 32
    let b := seed.toNat / 2 ^ 32
    fletcher64 (data.extract (4 * m) data.size)
        (packed (runningSum a (word data) m % 4294967295)
          (summedSum a b (word data) m % 4294967295))
      = fletcher64 data seed := by
  intro a b
  have hlow : runningSum a (word data) m % 4294967295 < 2 ^ 32 :=
    (Nat.mod_lt _ (by decide)).trans (by decide)
  have hhigh : summedSum a b (word data) m % 4294967295 < 2 ^ 32 :=
    (Nat.mod_lt _ (by decide)).trans (by decide)
  have hrest : (data.extract (4 * m) data.size).size = 4 * (n - m) := by
    rw [ByteArray.size_extract]
    omega
  have hword : word (data.extract (4 * m) data.size) = fun k => word data (k + m) :=
    funext (word_extract data m)
  have hpacked := toNat_packed hlow hhigh
  obtain ⟨hlower, hupper⟩ := sums_add a b (word data) m (n - m)
  rw [Nat.sub_add_cancel hm] at hlower hupper
  rw [fletcher64_eq_packed hsize rfl rfl, hlower, hupper, ← hword]
  apply fletcher64_eq_packed hrest
  · rw [hpacked, Nat.add_mul_mod_self_right, Nat.mod_eq_of_lt hlow]
    exact Nat.mod_modEq _ _
  · rw [hpacked, Nat.add_mul_div_right _ _ (by decide), Nat.div_eq_of_lt hlow, Nat.zero_add]
    exact Nat.mod_modEq _ _

/-- **The checksum is what its definition says:** both of its halves come from the sum of the words
    and from the sum of the values that it takes, as they are without any reduction.  Nothing
    overflows on the way, the checksum can be taken up after any of the words, its halves bring both
    sums to zero, and a buffer that ends within a word has none. -/
theorem fletcher64_eq_sums (data : ByteArray) (seed : UInt64) :
    (∀ n, data.size = 4 * n →
      let a := seed.toNat % 2 ^ 32
      let b := seed.toNat / 2 ^ 32
      let lower := fun k => a + ∑ i ∈ Finset.range k, word data i
      let upper := fun k => b + k * a + ∑ i ∈ Finset.range k, (k - i) * word data i
      let low := 4294967295 - (lower n + upper n) % 4294967295
      let high := 4294967295 - (lower n + low) % 4294967295
      let s := (FletcherSums.ofSeed seed).addWords data 0
      low < 2 ^ 32 ∧ high < 2 ^ 32 ∧
        fletcher64 data seed = .ok ((UInt64.ofNat high <<< 32) ||| UInt64.ofNat low) ∧
        fletcher64? data seed = some ((UInt64.ofNat high <<< 32) ||| UInt64.ofNat low) ∧
        (∀ m ≤ n, fletcher64 (data.extract (4 * m) data.size)
            ((UInt64.ofNat (upper m % 4294967295) <<< 32) ||| UInt64.ofNat (lower m % 4294967295))
          = fletcher64 data seed) ∧
        (s.addWord (UInt64.ofNat low)).addWord (UInt64.ofNat high) = ⟨0, 0⟩) ∧
    (data.size % 4 ≠ 0 → fletcher64 data seed = .error (.argument .checksumLength)) := by
  refine ⟨?_, fun hsize => if_neg hsize⟩
  intro n hsize a b lower upper low high s
  obtain ⟨hlower, hupper⟩ := @addWords_modEq data n seed hsize a b rfl rfl
  obtain ⟨hchecked, hrange⟩ :=
    @FletcherSums.addWords?_eq data _ (FletcherSums.inRange_ofSeed seed) 0
  have hchecksum : fletcher64? data seed = some (packed low high) := by
    rw [fletcher64?, hchecked, Option.bind_eq_bind, Option.bind_some,
      FletcherSums.checksum?_eq hrange, FletcherSums.checksum_eq_packed hrange hlower hupper]
    rfl
  exact ⟨lowHalf_lt _ _, highHalf_lt _ _, fletcher64_eq_packed hsize rfl rfl, hchecksum,
    fun m hm => fletcher64_extract hsize hm seed,
    FletcherSums.addWord_halves hrange hlower hupper⟩

/-- Two words, of which the second goes on where the first left off, and less than two words. -/
theorem fletcher64_wordsOneAndTwo :
    let data : ByteArray := ⟨#[1, 0, 0, 0, 2, 0, 0, 0]⟩
    let cut : ByteArray := ⟨#[1, 0, 0, 0, 2, 0]⟩
    data.size = 4 * 2 ∧ fletcher64 data 0 = .ok 0x00000004fffffff8 ∧
      fletcher64 (data.extract 4 8) 0x0000000100000001 = fletcher64 data 0 ∧
      cut.size % 4 ≠ 0 ∧ fletcher64 cut 0 = .error (.argument .checksumLength) := by
  intro data cut
  have hcut : cut.size % 4 ≠ 0 := by decide
  obtain ⟨-, -, hchecksum, -, hcontinue, -⟩ := (fletcher64_eq_sums data 0).1 2 rfl
  refine ⟨rfl, hchecksum.trans (congrArg _ ?_), Eq.trans (congrArg _ ?_) (hcontinue 1 (by decide)),
    hcut, (fletcher64_eq_sums cut 0).2 hcut⟩
  · decide +kernel
  · decide +kernel

end Apfs.Checksum
