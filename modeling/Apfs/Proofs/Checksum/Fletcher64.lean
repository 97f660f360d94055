import Apfs.Checksum.Fletcher64
import Apfs.Proofs.Bytes.Pieces

namespace Apfs.Checksum

/-!
# What the Fletcher-64 sums remember

One word moves the sums to other sums, and nothing about them is lost: from the sums afterwards,
modulo the modulus, those before can be told, and so can the word from both.  The checksum tells
the sums at the end.

* `word` — the words of a byte string.
* `FletcherSums.afterWords` — the sums after some words.
* `FletcherSums.Congruent` — equal sums, modulo the modulus.
* `congruent_addWord_iff` — one word keeps sums apart that were apart.
* `checksum_eq_iff` — equal checksums come from congruent sums.
* `congruent_words`, `words_of_checksum_eq` — two words may only differ by a multiple of the modulus
  if the sums after them are congruent, or if the checksum is the same.
* `congruent_afterWords` — words that differ by multiples of the modulus are not told apart.
-/

/-! ### Words -/

/-- The word at index `k` of a byte string: four bytes, least significant first, where bytes past
    the end count as zero. -/
def word (data : ByteArray) (k : Nat) : Nat :=
  Bytes.ofLittleEndian
    [Bytes.get data (4 * k), Bytes.get data (4 * k + 1), Bytes.get data (4 * k + 2),
      Bytes.get data (4 * k + 3)]

theorem word_eq (data : ByteArray) (k : Nat) :
    word data k = (Bytes.get data (4 * k)).toNat + 256 * (Bytes.get data (4 * k + 1)).toNat
      + 65536 * (Bytes.get data (4 * k + 2)).toNat
      + 16777216 * (Bytes.get data (4 * k + 3)).toNat := by
  simp only [word, Bytes.ofLittleEndian]
  ring

theorem word_lt (data : ByteArray) (k : Nat) : word data k < 4294967296 := by
  have h0 := (Bytes.get data (4 * k)).toNat_lt
  have h1 := (Bytes.get data (4 * k + 1)).toNat_lt
  have h2 := (Bytes.get data (4 * k + 2)).toNat_lt
  have h3 := (Bytes.get data (4 * k + 3)).toNat_lt
  rw [word_eq]
  omega

/-- A number that is put together from its low part and its shifted high part. -/
theorem toNat_or_shiftLeft {x y shift : UInt64} {n : Nat} (hshift : shift.toNat = n)
    (hx : x.toNat < 2 ^ n) (hy : y.toNat * 2 ^ n < 2 ^ 64) (hn : n < 64) :
    (x ||| y <<< shift).toNat = x.toNat + y.toNat * 2 ^ n := by
  rw [UInt64.toNat_or, UInt64.toNat_shiftLeft, hshift, Nat.mod_eq_of_lt hn, Nat.shiftLeft_eq,
    Nat.mod_eq_of_lt hy, ← Nat.shiftLeft_eq, Nat.or_comm, ← Nat.shiftLeft_add_eq_or_of_lt hx,
    Nat.shiftLeft_eq, Nat.add_comm]

/-- Four bytes are put together as a word. -/
theorem toNat_fourBytes (a b c d : UInt8) :
    (a.toUInt64 ||| (b.toUInt64 <<< 8) ||| (c.toUInt64 <<< 16) ||| (d.toUInt64 <<< 24)).toNat
      = a.toNat + 256 * b.toNat + 65536 * c.toNat + 16777216 * d.toNat := by
  have ha := a.toNat_lt
  have hb := b.toNat_lt
  have hc := c.toNat_lt
  have hd := d.toNat_lt
  -- Each byte goes above those before it, which together are less than its weight.
  have h1 := @toNat_or_shiftLeft a.toUInt64 b.toUInt64 8 8 rfl
    (by rw [UInt8.toNat_toUInt64]; omega) (by rw [UInt8.toNat_toUInt64]; omega) (by omega)
  rw [UInt8.toNat_toUInt64, UInt8.toNat_toUInt64] at h1
  have h2 := @toNat_or_shiftLeft _ c.toUInt64 16 16 rfl
    (by rw [h1]; omega) (by rw [UInt8.toNat_toUInt64]; omega) (by omega)
  rw [UInt8.toNat_toUInt64, h1] at h2
  have h3 := @toNat_or_shiftLeft _ d.toUInt64 24 24 rfl
    (by rw [h2]; omega) (by rw [UInt8.toNat_toUInt64]; omega) (by omega)
  rw [UInt8.toNat_toUInt64, h2] at h3
  rw [h3]
  omega

/-- Four bytes in a row are put together as the word that they are. -/
theorem fourBytes_eq_word {data : ByteArray} {k : Nat} (h : 4 * k + 4 ≤ data.size) :
    data[4 * k].toUInt64 ||| (data[4 * k + 1].toUInt64 <<< 8)
      ||| (data[4 * k + 2].toUInt64 <<< 16) ||| (data[4 * k + 3].toUInt64 <<< 24)
      = UInt64.ofNat (word data k) := by
  have hlt := word_lt data k
  have hofNat : (UInt64.ofNat (word data k)).toNat = word data k :=
    UInt64.toNat_ofNat_of_lt (by show _ < 2 ^ 64; omega)
  apply UInt64.toNat_inj.mp
  rw [toNat_fourBytes, hofNat, word_eq, Bytes.get_of_lt, Bytes.get_of_lt, Bytes.get_of_lt,
    Bytes.get_of_lt]

/-- The words of what is left after `m` of them. -/
theorem word_extract (data : ByteArray) (m k : Nat) :
    word (data.extract (4 * m) data.size) k = word data (k + m) := by
  have hget (i : Nat) : Bytes.get (data.extract (4 * m) data.size) i
      = Bytes.get data (i + 4 * m) := by
    by_cases hi : 4 * m + i < data.size
    · rw [Bytes.get_extract _ hi, Nat.add_comm]
    · rw [Bytes.get_of_le (by rw [ByteArray.size_extract]; omega), Bytes.get_of_le (by omega)]
  simp only [word_eq, hget, Nat.mul_add, Nat.add_right_comm _ _ (4 * m)]

/-! ### Sums after some words -/

namespace FletcherSums

/-- The sums after the first `n` of the words `w`. -/
def afterWords (s : FletcherSums) (w : Nat → Nat) : (n : Nat) → FletcherSums
  | 0 => s
  | n + 1 => (afterWords s w n).addWord (UInt64.ofNat (w n))

/-- The words of a buffer are added in their order.  By induction on the words that are left. -/
theorem addWords_eq {data : ByteArray} {n : Nat} (hsize : data.size = 4 * n) (s : FletcherSums)
    {i : Nat} (hi : i ≤ n) :
    (s.afterWords (word data) i).addWords data (4 * i) = s.afterWords (word data) n := by
  induction hgap : n - i generalizing i with
  | zero =>
    obtain rfl : i = n := by omega
    rw [addWords, dif_neg (by omega)]
  | succ gap ih =>
    rw [addWords, dif_pos (by omega)]
    dsimp only
    rw [fourBytes_eq_word]
    exact ih (i := i + 1) (by omega) (by omega)

/-- The sums have 32 bits each. -/
def InRange (s : FletcherSums) : Prop :=
  s.lower.toNat < 4294967296 ∧ s.upper.toNat < 4294967296

theorem inRange_ofSeed (seed : UInt64) : (ofSeed seed).InRange := by
  constructor
  · show (seed &&& 0xffffffff).toNat < 4294967296
    rw [UInt64.toNat_and]
    exact Nat.and_le_right.trans_lt (by decide)
  · show (seed >>> 32).toNat < 4294967296
    have hseed := seed.toNat_lt
    rw [UInt64.toNat_shiftRight, Nat.shiftRight_eq_div_pow]
    exact Nat.div_lt_of_lt_mul hseed

/-- Nothing overflows while a word is added. -/
theorem toNat_addWord {s : FletcherSums} (hs : s.InRange) {w : Nat} (hw : w < 4294967296) :
    (s.addWord (UInt64.ofNat w)).lower.toNat = (s.lower.toNat + w) % 4294967295 ∧
      (s.addWord (UInt64.ofNat w)).upper.toNat
        = (s.upper.toNat + (s.lower.toNat + w) % 4294967295) % 4294967295 := by
  obtain ⟨hlower, hupper⟩ := hs
  have hofNat : (UInt64.ofNat w).toNat = w :=
    UInt64.toNat_ofNat_of_lt (by show _ < 2 ^ 64; omega)
  have hmodulus : fletcherModulus.toNat = 4294967295 := rfl
  have hlow : ((s.lower + UInt64.ofNat w) % fletcherModulus).toNat
      = (s.lower.toNat + w) % 4294967295 := by
    have hsmall : s.lower.toNat + w < 2 ^ 64 := by omega
    rw [UInt64.toNat_mod, UInt64.toNat_add, hofNat, hmodulus, Nat.mod_eq_of_lt hsmall]
  refine ⟨hlow, ?_⟩
  show ((s.upper + (s.lower + UInt64.ofNat w) % fletcherModulus) % fletcherModulus).toNat = _
  have hsmall : s.upper.toNat + (s.lower.toNat + w) % 4294967295 < 2 ^ 64 := by omega
  rw [UInt64.toNat_mod, UInt64.toNat_add, hlow, hmodulus, Nat.mod_eq_of_lt hsmall]

theorem inRange_addWord {s : FletcherSums} (hs : s.InRange) {w : Nat} (hw : w < 4294967296) :
    (s.addWord (UInt64.ofNat w)).InRange := by
  obtain ⟨hlower, hupper⟩ := toNat_addWord hs hw
  rw [InRange, hlower, hupper]
  omega

/-! ### Congruent sums -/

/-- The sums are equal modulo the modulus. -/
def Congruent (s t : FletcherSums) : Prop :=
  s.lower.toNat % 4294967295 = t.lower.toNat % 4294967295 ∧
    s.upper.toNat % 4294967295 = t.upper.toNat % 4294967295

/-- **One step.**  Adding the same word to both makes sums congruent only if they were before. -/
theorem congruent_addWord_iff {s t : FletcherSums} (hs : s.InRange) (ht : t.InRange) {w : Nat}
    (hw : w < 4294967296) :
    Congruent (s.addWord (UInt64.ofNat w)) (t.addWord (UInt64.ofNat w)) ↔ Congruent s t := by
  obtain ⟨hlower, hupper⟩ := toNat_addWord hs hw
  obtain ⟨hlower', hupper'⟩ := toNat_addWord ht hw
  rw [Congruent, Congruent, hlower, hupper, hlower', hupper']
  omega

/-- Where two words lead from the same sums to congruent ones, they are themselves congruent to the
    words with which they are compared. -/
theorem congruent_words {s : FletcherSums} (hs : s.InRange) {v w v' w' : Nat}
    (hv : v < 4294967296) (hw : w < 4294967296) (hv' : v' < 4294967296) (hw' : w' < 4294967296)
    (h : Congruent ((s.addWord (UInt64.ofNat v)).addWord (UInt64.ofNat w))
      ((s.addWord (UInt64.ofNat v')).addWord (UInt64.ofNat w'))) :
    v % 4294967295 = v' % 4294967295 ∧ w % 4294967295 = w' % 4294967295 := by
  obtain ⟨hlower, hupper⟩ := toNat_addWord hs hv
  obtain ⟨hlower', hupper'⟩ := toNat_addWord hs hv'
  obtain ⟨hlast, hlastUpper⟩ := toNat_addWord (inRange_addWord hs hv) hw
  obtain ⟨hlast', hlastUpper'⟩ := toNat_addWord (inRange_addWord hs hv') hw'
  -- The lower sums tell `v + w`, and the upper ones `2 * v + w`.
  rw [Congruent, hlast, hlastUpper, hlast', hlastUpper', hlower, hupper, hlower', hupper'] at h
  omega

/-- The two halves of the checksum. -/
theorem toNat_checksum {s : FletcherSums} (hs : s.InRange) :
    ∃ low high, s.checksum.toNat = low + high * 2 ^ 32 ∧
      low = 4294967295 - (s.lower.toNat + s.upper.toNat) % 4294967295 ∧
      high = 4294967295 - (s.lower.toNat + low) % 4294967295 := by
  obtain ⟨hlower, hupper⟩ := hs
  have hmodulus : fletcherModulus.toNat = 4294967295 := rfl
  -- Both halves have the same form: what is missing to a multiple of the modulus.
  have hhalf (x y : UInt64) (hx : x.toNat < 4294967296) (hy : y.toNat < 4294967296) :
      (fletcherModulus - (x + y) % fletcherModulus).toNat
        = 4294967295 - (x.toNat + y.toNat) % 4294967295 := by
    have hsmall : x.toNat + y.toNat < 2 ^ 64 := by omega
    have hrest : ((x + y) % fletcherModulus).toNat = (x.toNat + y.toNat) % 4294967295 := by
      rw [UInt64.toNat_mod, UInt64.toNat_add, hmodulus, Nat.mod_eq_of_lt hsmall]
    rw [UInt64.toNat_sub_of_le _ _ (by rw [UInt64.le_iff_toNat_le, hrest, hmodulus]; omega),
      hrest, hmodulus]
  have hlow := hhalf s.lower s.upper hlower hupper
  have hhigh := hhalf s.lower _ hlower (by rw [hlow]; omega)
  refine ⟨_, _, ?_, hlow, hhigh⟩
  rw [checksum, UInt64.or_comm]
  exact @toNat_or_shiftLeft _ _ 32 32 rfl (by rw [hlow]; omega) (by rw [hhigh]; omega) (by omega)

/-- **The checksum** tells the sums that it was made of, but not from congruent ones. -/
theorem checksum_eq_iff {s t : FletcherSums} (hs : s.InRange) (ht : t.InRange) :
    s.checksum = t.checksum ↔ Congruent s t := by
  obtain ⟨low, high, hs', hlow, hhigh⟩ := toNat_checksum hs
  obtain ⟨low', high', ht', hlow', hhigh'⟩ := toNat_checksum ht
  have hpacked : s.checksum = t.checksum ↔ low = low' ∧ high = high' := by
    rw [← UInt64.toNat_inj, hs', ht']
    omega
  -- The low half tells the total of both sums, and the high half then tells the lower sum.
  rw [hpacked, Congruent]
  omega

/-! ### Words that differ -/

section

variable {s : FletcherSums} {w w' : Nat → Nat}

theorem inRange_afterWords (hs : s.InRange) (hw : ∀ i, w i < 4294967296) (n : Nat) :
    (s.afterWords w n).InRange := by
  induction n with
  | zero => exact hs
  | succ n ih => exact inRange_addWord ih (hw n)

theorem afterWords_congr {k : Nat} (h : ∀ i < k, w i = w' i) :
    s.afterWords w k = s.afterWords w' k := by
  induction k with
  | zero => rfl
  | succ k ih =>
    rw [afterWords, afterWords, ih fun i hi => h i (by omega), h k (by omega)]

/-- **All steps.**  Equal words from some place on do not change whether the sums are congruent. -/
theorem congruent_afterWords_iff (hs : s.InRange) (hw : ∀ i, w i < 4294967296)
    (hw' : ∀ i, w' i < 4294967296) {k n : Nat} (hkn : k ≤ n) (h : ∀ i, k ≤ i → w i = w' i) :
    Congruent (s.afterWords w n) (s.afterWords w' n) ↔
      Congruent (s.afterWords w k) (s.afterWords w' k) := by
  induction n, hkn using Nat.le_induction with
  | base => exact Iff.rfl
  | succ n hn ih =>
    rw [← ih, afterWords, afterWords, ← h n hn]
    exact congruent_addWord_iff (inRange_afterWords hs hw n) (inRange_afterWords hs hw' n) (hw n)

/-- Words that are the same modulo the modulus lead to congruent sums. -/
theorem congruent_afterWords (hs : s.InRange) (hw : ∀ i, w i < 4294967296)
    (hw' : ∀ i, w' i < 4294967296) {n : Nat} (h : ∀ i < n, w i % 4294967295 = w' i % 4294967295) :
    Congruent (s.afterWords w n) (s.afterWords w' n) := by
  induction n with
  | zero => exact ⟨rfl, rfl⟩
  | succ n ih =>
    have hword := h n (by omega)
    have hsums := ih fun i hi => h i (by omega)
    obtain ⟨hlower, hupper⟩ := toNat_addWord (inRange_afterWords hs hw n) (hw n)
    obtain ⟨hlower', hupper'⟩ := toNat_addWord (inRange_afterWords hs hw' n) (hw' n)
    unfold Congruent at hsums ⊢
    rw [afterWords, afterWords, hlower, hupper, hlower', hupper']
    omega

/-- Words that only differ in two neighbours, and have the same checksum, do not differ modulo the
    modulus. -/
theorem words_of_checksum_eq (hs : s.InRange) (hw : ∀ i, w i < 4294967296)
    (hw' : ∀ i, w' i < 4294967296) {k n : Nat} (hbefore : ∀ i < k, w i = w' i)
    (hafter : ∀ i, k + 2 ≤ i → w i = w' i) (hend : ∀ i, n ≤ i → w i = w' i)
    (h : (s.afterWords w n).checksum = (s.afterWords w' n).checksum) :
    w k % 4294967295 = w' k % 4294967295 ∧ w (k + 1) % 4294967295 = w' (k + 1) % 4294967295 := by
  have hatEnd : Congruent (s.afterWords w n) (s.afterWords w' n) :=
    (checksum_eq_iff (inRange_afterWords hs hw n) (inRange_afterWords hs hw' n)).mp h
  -- The sums are compared once more after both neighbours, which may be beyond the last word.
  have hlater : Congruent (s.afterWords w (n + (k + 2))) (s.afterWords w' (n + (k + 2))) :=
    (congruent_afterWords_iff hs hw hw' (by omega) hend).mpr hatEnd
  have hpair : Congruent (s.afterWords w (k + 2)) (s.afterWords w' (k + 2)) :=
    (congruent_afterWords_iff hs hw hw' (by omega) hafter).mp hlater
  have hfront : s.afterWords w' k = s.afterWords w k := (afterWords_congr hbefore).symm
  simp only [afterWords, hfront] at hpair
  exact congruent_words (inRange_afterWords hs hw k) (hw k) (hw (k + 1)) (hw' k) (hw' (k + 1)) hpair

end

end FletcherSums

end Apfs.Checksum
