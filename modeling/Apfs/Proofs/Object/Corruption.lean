import Apfs.Object.Header
import Apfs.Proofs.Checksum.Fletcher64
import Apfs.Proofs.Compression.BitStream
import Apfs.Proofs.Layout.Lossless

namespace Apfs

/-!
# What the checksum of an object detects

An object that holds its own checksum no longer does after it was damaged in one place.  The sums
behind the checksum are taken modulo `2 ^ 32 - 1`, so the words `0` and `0xffffffff` are the same to
them, but nothing else is.

* `AgreeOutside` — two objects have the same bytes outside a range.
* `ZeroExchange`, `Distinguishable` — the two words that the sums confuse, and words that they do
  not.
* `Damage` — how a damaged object differs.
* `eq_of_agreeOutside_checksum`, `word_mod_eq` — what two objects that both verify have in common
  apart from where they may differ.
* `mismatch_of_damage` — damage is reported.
* `verifyChecksum_of_zeroExchange` — what is not reported.
-/

open Checksum (word word_lt FletcherSums)

/-! ### Damage -/

/-- The objects have the same bytes outside `start ≤ i < stop`. -/
def AgreeOutside (a b : ByteArray) (start stop : Nat) : Prop :=
  ∀ i, i < start ∨ stop ≤ i → Bytes.get a i = Bytes.get b i

/-- One of the words is `0` and the other one `0xffffffff`. -/
def ZeroExchange (v w : Nat) : Prop :=
  v = 0 ∧ w = 0xffffffff ∨ v = 0xffffffff ∧ w = 0

/-- The words are not the same, even to sums that take `0` and `0xffffffff` for the same. -/
def Distinguishable (v w : Nat) : Prop :=
  v ≠ w ∧ ¬ ZeroExchange v w

/-- How `b` may differ from `a`. -/
inductive Damage (a b : ByteArray) : Prop where
  /-- Only the stored checksum was changed. -/
  | checksum (hrest : AgreeOutside a b 0 checksumSize)
  /-- Two words after the checksum were changed that stand side by side. -/
  | words (k : Nat) (hk : checksumSize ≤ 4 * k) (hrest : AgreeOutside a b (4 * k) (4 * k + 8))
    (hchanged : Distinguishable (word a k) (word b k) ∨
      Distinguishable (word a (k + 1)) (word b (k + 1)))
  /-- One byte was changed. -/
  | byte (i : Nat) (hrest : AgreeOutside a b i (i + 1))
  /-- Up to 32 bits after the checksum were changed that stand side by side, and they are not all
      the bits of a word that was 0 or is 0 now. -/
  | bits (order : BitOrder) (start length : Nat) (hstart : 8 * checksumSize ≤ start)
    (hlength : length ≤ 32)
    (hrest : ∀ p, p < start ∨ start + length ≤ p → (order.stream a)[p]? = (order.stream b)[p]?)
    (hexchange : ∀ k, ¬ ZeroExchange (word a k) (word b k))
  /-- Two words after the checksum changed places that stand side by side. -/
  | swap (k : Nat) (hk : checksumSize ≤ 4 * k) (hrest : AgreeOutside a b (4 * k) (4 * k + 8))
    (hfirst : word b k = word a (k + 1)) (hsecond : word b (k + 1) = word a k)
    (hchanged : Distinguishable (word a k) (word a (k + 1)))

/-! ### Bytes, words and bits -/

/-- The sums only confuse `0` and `0xffffffff`. -/
theorem eq_or_zeroExchange {v w : Nat} (hv : v < 4294967296) (hw : w < 4294967296)
    (h : v % 4294967295 = w % 4294967295) : v = w ∨ ZeroExchange v w := by
  unfold ZeroExchange
  omega

section

variable {a b : ByteArray}

theorem AgreeOutside.mono {start stop start' stop' : Nat} (h : AgreeOutside a b start stop)
    (hstart : start' ≤ start) (hstop : stop ≤ stop') : AgreeOutside a b start' stop' :=
  fun i hi => h i (by omega)

/-- Words outside the range are the same. -/
theorem AgreeOutside.word_eq {start stop k : Nat} (h : AgreeOutside a b start stop)
    (hk : 4 * k + 4 ≤ start ∨ stop ≤ 4 * k) : word a k = word b k := by
  rw [Checksum.word_eq, Checksum.word_eq, h _ (by omega), h _ (by omega), h _ (by omega),
    h _ (by omega)]

/-- Words past the end of both are the same. -/
theorem word_eq_of_le (hsize : b.size = a.size) {k : Nat} (hk : a.size ≤ 4 * k) :
    word a k = word b k := by
  have hget (i : Nat) (hi : a.size ≤ i) : Bytes.get a i = Bytes.get b i := by
    rw [Bytes.get_of_le hi, Bytes.get_of_le (by omega)]
  rw [Checksum.word_eq, Checksum.word_eq, hget _ (by omega), hget _ (by omega), hget _ (by omega),
    hget _ (by omega)]

/-- Objects with the same words have the same bytes. -/
theorem get_eq_of_word_eq {k i : Nat} (h : word a k = word b k) (hlow : 4 * k ≤ i)
    (hhigh : i < 4 * k + 4) : Bytes.get a i = Bytes.get b i := by
  have ha (j : Nat) := (Bytes.get a j).toNat_lt
  have hb (j : Nat) := (Bytes.get b j).toNat_lt
  have ha0 := ha (4 * k)
  have ha1 := ha (4 * k + 1)
  have ha2 := ha (4 * k + 2)
  have hb0 := hb (4 * k)
  have hb1 := hb (4 * k + 1)
  have hb2 := hb (4 * k + 2)
  rw [Checksum.word_eq, Checksum.word_eq] at h
  apply UInt8.toNat_inj.mp
  -- A word is a number of four digits to the base 256, which determines its digits.
  obtain rfl | rfl | rfl | rfl : i = 4 * k ∨ i = 4 * k + 1 ∨ i = 4 * k + 2 ∨ i = 4 * k + 3 := by
    omega
  all_goals omega

/-- The bits of a byte, among those of all bytes. -/
theorem getElem?_stream (order : BitOrder) (data : ByteArray) {i j : Nat} (hi : i < data.size)
    (hj : j < 8) : (order.stream data)[8 * i + j]? = (order.bits data[i])[j]? := by
  have hi' : i < data.data.toList.length := hi
  rw [← List.getElem?_drop, drop_stream, List.drop_eq_getElem_cons hi', BitOrder.bitsOf,
    List.flatMap_cons, List.getElem?_append_left (by rwa [BitOrder.length_bits])]
  rfl

/-- A byte whose bits are the same is the same. -/
theorem get_eq_of_stream_eq (hsize : b.size = a.size) {order : BitOrder} {i : Nat}
    (h : ∀ p, p / 8 = i → (order.stream a)[p]? = (order.stream b)[p]?) :
    Bytes.get a i = Bytes.get b i := by
  by_cases hi : i < a.size
  · have hbits : order.bits a[i] = order.bits b[i] := by
      apply List.ext_getElem?
      intro j
      by_cases hj : j < 8
      · rw [← getElem?_stream order a hi hj, ← getElem?_stream order b (by omega) hj,
          h _ (by omega)]
      · rw [List.getElem?_eq_none (by rw [BitOrder.length_bits]; omega),
          List.getElem?_eq_none (by rw [BitOrder.length_bits]; omega)]
    rw [Bytes.get_of_lt hi, Bytes.get_of_lt (by omega)]
    apply UInt8.toNat_inj.mp
    rw [← order.number_bits, hbits, order.number_bits]
  · rw [Bytes.get_of_le (by omega), Bytes.get_of_le (by omega)]

/-! ### Verification -/

/-- The checksum that the words of an object give. -/
def checksumOfWords (object : ByteArray) : UInt64 :=
  ((FletcherSums.ofSeed 0).afterWords (fun i => word object (i + 2)) (object.size / 4 - 2)).checksum

/-- Verification compares the first bytes of an object with the checksum of its words. -/
theorem verifyChecksum_eq {object : ByteArray} (hlength : object.size % 4 = 0)
    (hlarge : checksumSize ≤ object.size) :
    verifyChecksum object =
      if Layout.ofBytes (object.extract 0 checksumSize).toList = checksumOfWords object then .ok ()
      else .error (.checksumMismatch (Layout.ofBytes (object.extract 0 checksumSize).toList)
        (checksumOfWords object)) := by
  have hsize : (object.extract checksumSize object.size).size = 4 * (object.size / 4 - 2) := by
    rw [ByteArray.size_extract, checksumSize]
    omega
  -- The sums are taken of what is cut out, whose words are those of the object from 2 on.
  have hsums := FletcherSums.addWords_eq hsize (.ofSeed 0) (Nat.zero_le _)
  have hwords (k : Nat) : word (object.extract checksumSize object.size) k = word object (k + 2) :=
    Checksum.word_extract object 2 k
  rw [FletcherSums.afterWords, funext hwords] at hsums
  have hcomputed : computedChecksum object = .ok (checksumOfWords object) := by
    rw [computedChecksum, if_neg (by omega), Checksum.fletcher64, if_pos (by omega)]
    exact congrArg (fun s => Except.ok s.checksum) hsums
  rw [verifyChecksum, storedChecksum, if_neg (by omega), hcomputed]
  simp only [bind, Except.bind, ne_eq, ite_not]
  rfl

/-- Objects whose first bytes are the same hold the same checksum. -/
theorem extract_checksum_eq (hsize : b.size = a.size)
    (h : ∀ i < checksumSize, Bytes.get a i = Bytes.get b i) :
    a.extract 0 checksumSize = b.extract 0 checksumSize := by
  apply Bytes.ext_get
  · rw [ByteArray.size_extract, ByteArray.size_extract, hsize]
  · intro i hi
    rw [ByteArray.size_extract] at hi
    rw [Bytes.get_extract _ (by omega), Bytes.get_extract _ (by omega), h _ (by omega)]

/-- What verifies has whole words, and a checksum in front of them. -/
theorem size_of_verifyChecksum {object : ByteArray} (h : verifyChecksum object = .ok ()) :
    checksumSize ≤ object.size ∧ object.size % 4 = 0 := by
  have hsize : (object.extract checksumSize object.size).size = object.size - checksumSize := by
    simp
  unfold verifyChecksum storedChecksum computedChecksum Checksum.fletcher64 at h
  rw [hsize] at h
  by_cases hshort : object.size < checksumSize
  · simp [hshort, bind, Except.bind] at h
  · by_cases hlength : (object.size - checksumSize) % 4 = 0
    · unfold checksumSize at *
      omega
    · simp [hshort, hlength, bind, Except.bind] at h

/-- What verifies holds the checksum of its words. -/
theorem stored_of_verifyChecksum {object : ByteArray} (h : verifyChecksum object = .ok ()) :
    Layout.ofBytes (object.extract 0 checksumSize).toList = checksumOfWords object := by
  obtain ⟨hlarge, hlength⟩ := size_of_verifyChecksum h
  rw [verifyChecksum_eq hlength hlarge] at h
  split at h
  · assumption
  · contradiction

/-! ### Two objects that both verify -/

variable (ha : verifyChecksum a = .ok ()) (hb : verifyChecksum b = .ok ())
  (hsize : b.size = a.size)
include ha hb hsize

/-- The checksum of their words is that of both, so its bytes are the same if the checksum is. -/
theorem extract_eq_of_checksumOfWords (h : checksumOfWords a = checksumOfWords b) :
    a.extract 0 checksumSize = b.extract 0 checksumSize := by
  obtain ⟨hlarge, hlength⟩ := size_of_verifyChecksum ha
  have hfront (object : ByteArray) (hobject : checksumSize ≤ object.size) :
      (object.extract 0 checksumSize).toList.length = Layout.size UInt64 := by
    rw [Bytes.toList_eq]
    show (object.extract 0 checksumSize).size = checksumSize
    rw [ByteArray.size_extract]
    omega
  have hbytes : (a.extract 0 checksumSize).toList = (b.extract 0 checksumSize).toList := by
    rw [← @Lossless.toBytes_ofBytes UInt64 _ _ _ (hfront a hlarge),
      ← @Lossless.toBytes_ofBytes UInt64 _ _ _ (hfront b (by omega)),
      stored_of_verifyChecksum ha, stored_of_verifyChecksum hb, h]
  rw [Bytes.toList_eq, Bytes.toList_eq, Array.toList_inj] at hbytes
  exact ByteArray.ext hbytes

/-- With the same words they are the same objects. -/
theorem eq_of_agreeOutside_checksum (h : AgreeOutside a b 0 checksumSize) : a = b := by
  have hsums : checksumOfWords a = checksumOfWords b := by
    unfold checksumOfWords
    rw [hsize]
    congr 1
    apply FletcherSums.afterWords_congr
    intro i _
    apply h.word_eq
    unfold checksumSize
    omega
  -- So both hold the same checksum, and the bytes that were changed are those of it.
  have hfront := extract_eq_of_checksumOfWords ha hb hsize hsums
  have hget (object : ByteArray) {i : Nat} (hi : i < checksumSize) :
      Bytes.get (object.extract 0 checksumSize) i = Bytes.get object i := by
    rw [Bytes.get_extract _ (by omega), Nat.zero_add]
  apply Bytes.ext_get hsize.symm
  intro i _
  by_cases hi : i < checksumSize
  · rw [← hget a hi, ← hget b hi, hfront]
  · exact h i (by omega)

/-- With the same checksum, two words that stand side by side are the same to the sums. -/
theorem word_mod_eq {k : Nat} (hk : checksumSize ≤ 4 * k)
    (h : AgreeOutside a b (4 * k) (4 * k + 8)) :
    word a k % 4294967295 = word b k % 4294967295 ∧
      word a (k + 1) % 4294967295 = word b (k + 1) % 4294967295 := by
  obtain ⟨hlarge, hlength⟩ := size_of_verifyChecksum ha
  have hstored : a.extract 0 checksumSize = b.extract 0 checksumSize :=
    extract_checksum_eq hsize fun i hi => h i (by omega)
  have hsums : checksumOfWords a = checksumOfWords b := by
    rw [← stored_of_verifyChecksum ha, ← stored_of_verifyChecksum hb, hstored]
  -- The first two words hold the checksum, which is not among the words that are summed.
  obtain ⟨j, rfl⟩ : ∃ j, k = j + 2 := ⟨k - 2, by unfold checksumSize at hk; omega⟩
  unfold checksumOfWords at hsums
  rw [hsize] at hsums
  apply FletcherSums.words_of_checksum_eq (FletcherSums.inRange_ofSeed 0) (fun _ => word_lt ..)
    (fun _ => word_lt ..) ?_ ?_ ?_ hsums
  · intro i hi
    exact h.word_eq (by omega)
  · intro i hi
    exact h.word_eq (by omega)
  · intro i hi
    exact word_eq_of_le hsize (by omega)

/-- Then they are the same objects, if no word was exchanged for its double. -/
theorem eq_of_agreeOutside_words {k : Nat} (hk : checksumSize ≤ 4 * k)
    (h : AgreeOutside a b (4 * k) (4 * k + 8)) (hfirst : ¬ ZeroExchange (word a k) (word b k))
    (hsecond : ¬ ZeroExchange (word a (k + 1)) (word b (k + 1))) : a = b := by
  obtain ⟨hmod, hmod'⟩ := word_mod_eq ha hb hsize hk h
  have heq := eq_or_zeroExchange (word_lt ..) (word_lt ..) hmod
  have heq' := eq_or_zeroExchange (word_lt ..) (word_lt ..) hmod'
  apply Bytes.ext_get hsize.symm
  intro i _
  by_cases hin : i < 4 * k ∨ 4 * k + 8 ≤ i
  · exact h i hin
  · by_cases hlow : i < 4 * k + 4
    · exact get_eq_of_word_eq (heq.resolve_right hfirst) (by omega) hlow
    · exact get_eq_of_word_eq (heq'.resolve_right hsecond) (by omega) (by omega)

omit ha hb hsize

/-! ### What goes unnoticed -/

/-- The sums take `0` and `0xffffffff` for the same. -/
theorem ZeroExchange.mod_eq {v w : Nat} (h : ZeroExchange v w) :
    v % 4294967295 = w % 4294967295 := by
  unfold ZeroExchange at h
  omega

/-- **The limit of detection.**  An object still verifies after words behind the checksum were
    exchanged between `0` and `0xffffffff`, however many of them. -/
theorem verifyChecksum_of_zeroExchange (ha : verifyChecksum a = .ok ()) (hsize : b.size = a.size)
    (hstored : ∀ i < checksumSize, Bytes.get a i = Bytes.get b i)
    (h : ∀ k, checksumSize ≤ 4 * k → word a k = word b k ∨ ZeroExchange (word a k) (word b k)) :
    verifyChecksum b = .ok () := by
  obtain ⟨hlarge, hlength⟩ := size_of_verifyChecksum ha
  have hsums : checksumOfWords a = checksumOfWords b := by
    have hrange := FletcherSums.inRange_ofSeed 0
    unfold checksumOfWords
    rw [hsize, FletcherSums.checksum_eq_iff
      (FletcherSums.inRange_afterWords hrange (fun _ => word_lt ..) _)
      (FletcherSums.inRange_afterWords hrange (fun _ => word_lt ..) _)]
    apply FletcherSums.congruent_afterWords hrange (fun _ => word_lt ..) (fun _ => word_lt ..)
    intro i _
    obtain heq | hexchange := h (i + 2) (by unfold checksumSize; omega)
    · rw [heq]
    · exact hexchange.mod_eq
  rw [verifyChecksum_eq (by omega) (by omega), ← extract_checksum_eq hsize hstored,
    stored_of_verifyChecksum ha, hsums, if_pos rfl]

/-! ### Detection -/

/-- One changed byte does not exchange a word for its double. -/
theorem AgreeOutside.not_zeroExchange {i : Nat} (h : AgreeOutside a b i (i + 1)) (k : Nat) :
    ¬ ZeroExchange (word a k) (word b k) := by
  -- One of the first two bytes is the same as before, but it would have to go from 0 to 255.
  have hsame : Bytes.get a (4 * k) = Bytes.get b (4 * k) ∨
      Bytes.get a (4 * k + 1) = Bytes.get b (4 * k + 1) := by
    by_cases hi : i = 4 * k
    · exact .inr (h _ (by omega))
    · exact .inl (h _ (by omega))
  have ha (j : Nat) := (Bytes.get a j).toNat_lt
  have hb (j : Nat) := (Bytes.get b j).toNat_lt
  have ha1 := ha (4 * k + 1)
  have hb1 := hb (4 * k + 1)
  have ha0 := ha (4 * k)
  have hb0 := hb (4 * k)
  simp only [← UInt8.toNat_inj] at hsame
  rw [ZeroExchange, Checksum.word_eq, Checksum.word_eq]
  omega

/-- A run of up to 32 bits stays within two words that stand side by side. -/
theorem agreeOutside_of_bits (hsize : b.size = a.size) {order : BitOrder} {start length : Nat}
    (hlength : length ≤ 32)
    (h : ∀ p, p < start ∨ start + length ≤ p → (order.stream a)[p]? = (order.stream b)[p]?) :
    AgreeOutside a b (4 * (start / 32)) (4 * (start / 32) + 8) := by
  intro i hi
  apply get_eq_of_stream_eq hsize
  intro p hp
  exact h p (by omega)

/-- If an object still verifies after damage, nothing was changed. -/
theorem eq_of_damage (ha : verifyChecksum a = .ok ()) (hb : verifyChecksum b = .ok ())
    (hsize : b.size = a.size) (h : Damage a b) : a = b := by
  cases h with
  | checksum hrest => exact eq_of_agreeOutside_checksum ha hb hsize hrest
  | words k hk hrest hchanged =>
    obtain ⟨hmod, hmod'⟩ := word_mod_eq ha hb hsize hk hrest
    have heq := eq_or_zeroExchange (word_lt ..) (word_lt ..) hmod
    have heq' := eq_or_zeroExchange (word_lt ..) (word_lt ..) hmod'
    unfold Distinguishable at hchanged
    tauto
  | byte i hrest =>
    by_cases hi : i < checksumSize
    · exact eq_of_agreeOutside_checksum ha hb hsize (hrest.mono (by omega) (by omega))
    · unfold checksumSize at hi
      exact eq_of_agreeOutside_words ha hb hsize (k := i / 4) (by unfold checksumSize; omega)
        (hrest.mono (by omega) (by omega)) (hrest.not_zeroExchange _) (hrest.not_zeroExchange _)
  | bits order start length hstart hlength hrest hexchange =>
    unfold checksumSize at hstart
    exact eq_of_agreeOutside_words ha hb hsize (by unfold checksumSize; omega)
      (agreeOutside_of_bits hsize hlength hrest) (hexchange _) (hexchange _)
  | swap k hk hrest hfirst hsecond hchanged =>
    -- To the sums, the word that came to the first place is the same as the one that was there.
    obtain ⟨hmod, -⟩ := word_mod_eq ha hb hsize hk hrest
    rw [hfirst] at hmod
    have heq := eq_or_zeroExchange (word_lt ..) (word_lt ..) hmod
    unfold Distinguishable at hchanged
    tauto

/-- **Detection.**  Damage to an object that verifies is reported as a wrong checksum. -/
theorem mismatch_of_damage (ha : verifyChecksum a = .ok ()) (hsize : b.size = a.size)
    (hne : b ≠ a) (h : Damage a b) :
    ∃ stored computed, verifyChecksum b = .error (.checksumMismatch stored computed) := by
  obtain ⟨hlarge, hlength⟩ := size_of_verifyChecksum ha
  have hcases := @verifyChecksum_eq b (by omega) (by omega)
  split at hcases
  · exact absurd (eq_of_damage ha hcases hsize h).symm hne
  · exact ⟨_, _, hcases⟩

end

/-- The checksum of the words 1 and 2, followed by two words. -/
def twoWords (v w : UInt8) : ByteArray :=
  ⟨#[0xf8, 0xff, 0xff, 0xff, 4, 0, 0, 0, v, 0, 0, 0, w, 0, 0, 0]⟩

theorem mismatch_twoWords :
    verifyChecksum (twoWords 1 2) = .ok () ∧
      ∃ stored computed, verifyChecksum (twoWords 2 1) =
        .error (.checksumMismatch stored computed) := by
  have hvalid : verifyChecksum (twoWords 1 2) = .ok () := by cbv
  have hne : twoWords 2 1 ≠ twoWords 1 2 := by decide
  have hrest : AgreeOutside (twoWords 1 2) (twoWords 2 1) 8 16 := by
    rintro i (hi | hi)
    · revert i
      decide
    · rw [Bytes.get_of_le hi, Bytes.get_of_le hi]
  have hchanged : Distinguishable (word (twoWords 1 2) 2) (word (twoWords 1 2) 3) := by
    unfold Distinguishable ZeroExchange
    decide
  exact ⟨hvalid, mismatch_of_damage hvalid rfl hne
    (.swap 2 (by decide) hrest (by decide) (by decide) hchanged)⟩

end Apfs
