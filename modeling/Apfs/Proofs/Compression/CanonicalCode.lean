import Apfs.Compression.PrefixCode
import Apfs.Proofs.Compression.Grammar

namespace Apfs

/-!
# Canonical codes

The code word of a symbol in a canonical code is a number with as many bits as the code length of
the symbol says, the most significant bit first.  Code words of one length are consecutive and
ascend with their symbols, and each shorter code word comes before the longer ones.

* `firstWord` — the least code word of each length.
* `CodeWord` — the code word of a symbol.
* `Admissible` — code lengths that are not over-subscribed.
* `ofLengths_eq_ok_iff` — codes are built for exactly the admissible lengths.
* `reads_decode` — decoding reads a code word and gives its symbol.
-/

/-! ### Code words -/

/-- The number of code words of a length.  No code word has length 0. -/
def wordCount (lengths : List Nat) (l : Nat) : Nat := if l = 0 then 0 else lengths.count l

theorem wordCount_succ (lengths : List Nat) (l : Nat) :
    wordCount lengths (l + 1) = lengths.count (l + 1) := if_neg l.succ_ne_zero

/-- The least code word of each length. -/
def firstWord (lengths : List Nat) : Nat → Nat
  | 0 => 0
  | l + 1 => 2 * (firstWord lengths l + wordCount lengths l)

/-- The code word of a symbol has the length that is given for the symbol; as a number, it comes
    after those of the same length for smaller symbols. -/
def CodeWord (lengths : List Nat) (s : Nat) (w : List Bool) : Prop :=
  w ≠ [] ∧ lengths[s]? = some w.length ∧
    ofLowBits w.reverse = firstWord lengths w.length + (lengths.take s).count w.length

/-- The rank of a symbol among those of its length is less than their number. -/
theorem count_take_lt {lengths : List Nat} {s l : Nat} (h : lengths[s]? = some l) :
    (lengths.take s).count l < lengths.count l := by
  obtain ⟨hs, rfl⟩ := List.getElem?_eq_some_iff.mp h
  have hsplit : lengths.take s ++ lengths[s] :: lengths.drop (s + 1) = lengths := by
    rw [← List.drop_eq_getElem_cons hs, List.take_append_drop]
  have hcount := congrArg (List.count lengths[s]) hsplit
  rw [List.count_append, List.count_cons_self] at hcount
  omega

/-- The words of greater lengths start after all those that continue shorter ones. -/
theorem le_firstWord (lengths : List Nat) (k j : Nat) :
    2 ^ (j + 1) * (firstWord lengths k + wordCount lengths k) ≤ firstWord lengths (k + (j + 1)) := by
  induction j with
  | zero => rw [Nat.zero_add, pow_one, firstWord]
  | succ j ih =>
    rw [← Nat.add_assoc, firstWord, pow_succ']
    calc 2 * 2 ^ (j + 1) * (firstWord lengths k + wordCount lengths k)
        = 2 * (2 ^ (j + 1) * (firstWord lengths k + wordCount lengths k)) := by ring
      _ ≤ 2 * (firstWord lengths (k + (j + 1)) + wordCount lengths (k + (j + 1))) := by omega

/-! ### Admissible lengths -/

/-- The number of words of length `k` that continue a code word of length `l`, or are it. -/
def weight (k l : Nat) : Nat := if l = 0 ∨ k < l then 0 else 2 ^ (k - l)

/-- The number of words of length `k` that continue a code word, or are one. -/
def kraft (lengths : List Nat) (k : Nat) : Nat := (lengths.map (weight k)).sum

/-- Code lengths for which there are enough words: none is too long, and the words that continue
    code words do not exceed all words. -/
def Admissible (lengths : List Nat) : Prop :=
  (∀ l ∈ lengths, l ≤ 15) ∧ ((lengths.filter (· ≠ 0)).map fun l => 2 ^ (15 - l)).sum ≤ 2 ^ 15

/-- A word is continued in two ways by one bit more. -/
theorem weight_succ (k l : Nat) :
    weight (k + 1) l = 2 * weight k l + if l = k + 1 then 1 else 0 := by
  unfold weight
  by_cases hle : l ≤ k
  · have hpow : 2 ^ (k + 1 - l) = 2 * 2 ^ (k - l) := by
      rw [← pow_succ']
      congr 1
      omega
    have hne : l ≠ k + 1 := by omega
    rw [if_neg hne, hpow]
    by_cases hzero : l = 0
    · rw [if_pos (.inl hzero), if_pos (.inl hzero)]
    · rw [if_neg (by omega), if_neg (by omega)]
      rfl
  · rw [if_pos (.inr (Nat.lt_of_not_le hle) : l = 0 ∨ k < l)]
    by_cases heq : l = k + 1
    · rw [if_neg (by omega), if_pos heq, heq, Nat.sub_self]
      rfl
    · rw [if_pos (by omega), if_neg heq]

/-- Words of the next length continue shorter ones in two ways each, or are code words. -/
theorem kraft_succ (lengths : List Nat) (k : Nat) :
    kraft lengths (k + 1) = 2 * kraft lengths k + lengths.count (k + 1) := by
  induction lengths with
  | nil => rfl
  | cons l lengths ih =>
    unfold kraft at ih ⊢
    rw [List.map_cons, List.map_cons, List.sum_cons, List.sum_cons, ih, weight_succ,
      List.count_cons]
    simp only [beq_iff_eq]
    omega

/-- Up to a length, the words that are taken are those before the end of the words of that
    length. -/
theorem kraft_eq (lengths : List Nat) (k : Nat) :
    kraft lengths k = firstWord lengths k + wordCount lengths k := by
  induction k with
  | zero =>
    induction lengths with
    | nil => rfl
    | cons l lengths ih =>
      have hweight : weight 0 l = 0 := by
        unfold weight
        rw [if_pos (by omega)]
      rw [kraft, List.map_cons, List.sum_cons, hweight, Nat.zero_add]
      exact ih
  | succ k ih =>
    rw [kraft_succ, ih, firstWord, wordCount_succ]

/-- The words that are taken stay taken in greater lengths. -/
theorem kraft_le (lengths : List Nat) (k j : Nat) :
    2 ^ j * kraft lengths k ≤ kraft lengths (k + j) := by
  induction j with
  | zero => rw [pow_zero, one_mul, Nat.add_zero]
  | succ j ih =>
    rw [← Nat.add_assoc, kraft_succ, pow_succ', mul_assoc]
    omega

/-- Lengths that are not too long are admissible if enough words of the greatest length are left. -/
theorem admissible_iff {lengths : List Nat} (h : ∀ l ∈ lengths, l ≤ 15) :
    Admissible lengths ↔ kraft lengths 15 ≤ 2 ^ 15 := by
  have hsum : ((lengths.filter (· ≠ 0)).map fun l => 2 ^ (15 - l)).sum = kraft lengths 15 := by
    unfold kraft
    induction lengths with
    | nil => rfl
    | cons l lengths ih =>
      obtain ⟨hl, hrest⟩ := List.forall_mem_cons.mp h
      rw [List.filter_cons, List.map_cons, List.sum_cons, ← ih hrest, weight]
      by_cases hzero : l = 0
      · rw [if_neg (by simp [hzero]), if_pos (.inl hzero), Nat.zero_add]
      · rw [if_pos (by simp [hzero]), if_neg (by omega), List.map_cons, List.sum_cons]
  rw [Admissible, hsum]
  exact and_iff_right h

/-- The check for room, length by length, is that there are enough words of the last length. -/
theorem hasRoom_iff {lengths : List Nat} {free k m : Nat}
    (hfree : free + kraft lengths k = 2 ^ k) :
    PrefixCode.hasRoom free ((List.range' k m).map fun i => lengths.count (i + 1)) = true ↔
      kraft lengths (k + m) ≤ 2 ^ (k + m) := by
  induction m generalizing free k with
  | zero =>
    simp only [List.range'_zero, List.map_nil, PrefixCode.hasRoom, Nat.add_zero, true_iff]
    omega
  | succ m ih =>
    have hsucc := kraft_succ lengths k
    have hpow : 2 ^ (k + 1) = 2 * 2 ^ k := pow_succ' 2 k
    rw [List.range'_succ, List.map_cons, PrefixCode.hasRoom, Bool.and_eq_true, decide_eq_true_eq]
    constructor
    · rintro ⟨hcount, hroom⟩
      rw [ih (by omega), Nat.add_right_comm] at hroom
      exact hroom
    · intro hle
      have hmono := kraft_le lengths (k + 1) m
      have hpow' : 2 ^ (k + (m + 1)) = 2 ^ m * 2 ^ (k + 1) := by
        rw [← pow_add]
        congr 1
        omega
      have hle' : kraft lengths (k + 1) ≤ 2 ^ (k + 1) := by
        rw [hpow', show k + (m + 1) = k + 1 + m by omega] at hle
        exact Nat.le_of_mul_le_mul_left (hmono.trans hle) (Nat.two_pow_pos m)
      refine ⟨by omega, ?_⟩
      rw [ih (by omega), Nat.add_right_comm]
      exact hle

theorem counts_build (lengths : List Nat) :
    (PrefixCode.build lengths).counts
      = (List.range' 0 15).map fun i => lengths.count (i + 1) := by
  rw [PrefixCode.build, List.range_eq_range']
  rfl

/-- **Codes are built for the admissible lengths**, and for no others. -/
theorem ofLengths_eq_ok_iff {lengths : List Nat} {code : PrefixCode} :
    PrefixCode.ofLengths lengths = .ok code ↔
      lengths.length ≤ 65535 ∧ Admissible lengths ∧ code = .build lengths := by
  have hzero : kraft lengths 0 = 0 := kraft_eq lengths 0
  have hany : lengths.any (PrefixCode.maxLength < ·) = true ↔ ¬ ∀ l ∈ lengths, l ≤ 15 := by
    rw [List.any_eq_true]
    simp only [decide_eq_true_eq, not_forall, not_le, exists_prop]
    rfl
  unfold PrefixCode.ofLengths
  by_cases hlen : 65535 < lengths.length
  · rw [if_pos hlen]
    constructor
    · intro h
      cases h
    · rintro ⟨h, -⟩
      omega
  · rw [if_neg hlen]
    by_cases hlong : ∀ l ∈ lengths, l ≤ 15
    · rw [if_neg (fun h => hany.mp h hlong), admissible_iff hlong]
      have hroom_iff : PrefixCode.hasRoom 1 (PrefixCode.build lengths).counts = true ↔
          kraft lengths 15 ≤ 2 ^ 15 := by
        rw [counts_build, hasRoom_iff (by rw [hzero]; rfl)]
      dsimp only
      by_cases hroom : kraft lengths 15 ≤ 2 ^ 15
      · rw [if_pos (hroom_iff.mpr hroom), Except.ok.injEq, eq_comm]
        exact ⟨fun h => ⟨Nat.le_of_not_lt hlen, hroom, h⟩, fun h => h.2.2⟩
      · rw [if_neg (fun h => hroom (hroom_iff.mp h))]
        constructor
        · intro h
          cases h
        · rintro ⟨-, h, -⟩
          exact absurd h hroom
    · rw [if_pos (hany.mpr hlong)]
      constructor
      · intro h
        cases h
      · rintro ⟨-, h, -⟩
        exact absurd h.1 hlong

/-! ### Symbols in the order of their code words -/

/-- The symbols of one length are listed in order. -/
theorem getElem?_filterMap_zipIdx (lengths : List Nat) (l start j s : Nat) :
    ((lengths.zipIdx start).filterMap
        fun (k, symbol) => if k = l then some symbol else none)[j]? = some s ↔
      ∃ i, s = start + i ∧ lengths[i]? = some l ∧ (lengths.take i).count l = j := by
  induction lengths generalizing start j with
  | nil => simp
  | cons k lengths ih =>
    rw [List.zipIdx_cons, List.filterMap_cons]
    have hrest : (∃ i, s = start + i ∧ (k :: lengths)[i]? = some l ∧
          ((k :: lengths).take i).count l = j) ↔
        (s = start ∧ k = l ∧ j = 0) ∨ ∃ i, s = start + 1 + i ∧ lengths[i]? = some l ∧
          (lengths.take i).count l + (if k = l then 1 else 0) = j := by
      constructor
      · rintro ⟨_ | i, hs, hget, hcount⟩
        · exact .inl ⟨hs, Option.some.inj hget, hcount.symm⟩
        · refine .inr ⟨i, by omega, hget, ?_⟩
          rw [List.take_succ_cons, List.count_cons] at hcount
          simpa using hcount
      · rintro (⟨hs, hk, hj⟩ | ⟨i, hs, hget, hcount⟩)
        · exact ⟨0, hs, congrArg some hk, hj.symm⟩
        · refine ⟨i + 1, by omega, hget, ?_⟩
          rw [List.take_succ_cons, List.count_cons]
          simpa using hcount
    rw [hrest]
    by_cases hk : k = l
    · simp only [hk, if_true, true_and]
      cases j with
      | zero => simp [eq_comm]
      | succ j =>
        rw [List.getElem?_cons_succ, ih]
        simp
    · simp only [hk, if_false, false_and, and_false, false_or, ih, Nat.add_zero]

/-- The symbols of one length, by their rank. -/
theorem getElem?_symbolsOfLength {lengths : List Nat} {l j s : Nat} :
    (PrefixCode.symbolsOfLength lengths l)[j]? = some s ↔
      lengths[s]? = some l ∧ (lengths.take s).count l = j := by
  unfold PrefixCode.symbolsOfLength
  rw [getElem?_filterMap_zipIdx]
  simp

theorem length_symbolsOfLength (lengths : List Nat) (l : Nat) :
    (PrefixCode.symbolsOfLength lengths l).length = lengths.count l := by
  unfold PrefixCode.symbolsOfLength
  generalize 0 = start
  induction lengths generalizing start with
  | nil => rfl
  | cons k lengths ih =>
    rw [List.zipIdx_cons, List.filterMap_cons, List.count_cons]
    by_cases hk : k = l
    · simp [hk, ih]
    · simp [hk, ih]

/-! ### Decoding -/

/-- What is left of a code word after `k` bits that are the number `v`. -/
def WordRest (lengths : List Nat) (k v : Nat) (s : Nat) (w : List Bool) : Prop :=
  w ≠ [] ∧ lengths[s]? = some (k + w.length) ∧
    v * 2 ^ w.length + ofLowBits w.reverse
      = firstWord lengths (k + w.length) + (lengths.take s).count (k + w.length)

/-- One bit more is the end of a code word exactly if the number is among the words of its
    length. -/
theorem wordRest_cons {lengths : List Nat} {k v s : Nat} {b : Bool} {w : List Bool}
    (hv : firstWord lengths k + wordCount lengths k ≤ v) :
    WordRest lengths k v s (b :: w) ↔
      if 2 * v + b.toNat < firstWord lengths (k + 1) + lengths.count (k + 1) then
        w = [] ∧ (PrefixCode.symbolsOfLength lengths (k + 1))[2 * v + b.toNat
          - firstWord lengths (k + 1)]? = some s
      else WordRest lengths (k + 1) (2 * v + b.toNat) s w := by
  have hnumber : v * 2 ^ (b :: w).length + ofLowBits (b :: w).reverse
      = (2 * v + b.toNat) * 2 ^ w.length + ofLowBits w.reverse := by
    rw [List.reverse_cons, ofLowBits_append, List.length_reverse, List.length_cons, ofLowBits,
      ofLowBits]
    ring
  have hlength : k + (b :: w).length = k + 1 + w.length := by
    rw [List.length_cons]
    omega
  have hfirst : firstWord lengths (k + 1) ≤ 2 * v + b.toNat := by
    rw [firstWord]
    omega
  unfold WordRest
  rw [hnumber, hlength]
  generalize 2 * v + b.toNat = word at hfirst ⊢
  cases w with
  | nil =>
    rw [List.length_nil, Nat.add_zero, pow_zero, mul_one, List.reverse_nil, ofLowBits, Nat.add_zero,
      getElem?_symbolsOfLength]
    by_cases hlt : word < firstWord lengths (k + 1) + lengths.count (k + 1)
    · rw [if_pos hlt]
      constructor
      · rintro ⟨-, hget, hword⟩
        exact ⟨rfl, hget, by omega⟩
      · rintro ⟨-, hget, hrank⟩
        exact ⟨List.cons_ne_nil _ _, hget, by omega⟩
    · rw [if_neg hlt]
      constructor
      · rintro ⟨-, hget, hword⟩
        have hrank := count_take_lt hget
        omega
      · rintro ⟨h, -⟩
        exact absurd rfl h
  | cons x w =>
    by_cases hlt : word < firstWord lengths (k + 1) + lengths.count (k + 1)
    · -- The words of greater lengths come after all that continue a word of this length.
      rw [if_pos hlt]
      constructor
      · rintro ⟨-, -, hword⟩
        have hlow := ofLowBits_lt (x :: w).reverse
        have hnext := le_firstWord lengths (k + 1) w.length
        rw [List.length_reverse] at hlow
        rw [List.length_cons] at hlow hword
        have hmul : (word + 1) * 2 ^ (w.length + 1)
            ≤ 2 ^ (w.length + 1) * (firstWord lengths (k + 1) + wordCount lengths (k + 1)) := by
          rw [Nat.mul_comm, wordCount_succ]
          exact Nat.mul_le_mul_left _ hlt
        rw [add_mul, one_mul] at hmul
        omega
      · rintro ⟨h, -⟩
        cases h
    · rw [if_neg hlt]
      exact and_congr_left' (by simp)

/-- **Decoding from the middle of a code word** reads the rest of it.  By induction on the lengths
    that are left; before each of them, the number read so far is past all shorter code words. -/
theorem reads_decodeFrom {order : BitOrder} {lengths : List Nat} (hlong : ∀ l ∈ lengths, l ≤ 15)
    {symbols : Array Nat} {k m v index : Nat} (hk : k + m = 15)
    (hv : firstWord lengths k + wordCount lengths k ≤ v)
    (hsymbols : symbols.toList.drop index
      = (List.range' k m).flatMap fun i => PrefixCode.symbolsOfLength lengths (i + 1)) :
    Reads order
      (PrefixCode.decodeFrom symbols (2 * v) (firstWord lengths (k + 1)) index
        ((List.range' k m).map fun i => lengths.count (i + 1)))
      fun _ s w => WordRest lengths k v s w := by
  induction m generalizing k v index with
  | zero =>
    refine (Reads.throw _).congr fun p s w => ?_
    rw [false_iff]
    rintro ⟨hw, hget, -⟩
    have hle := hlong _ (List.mem_of_getElem? hget)
    have hpos := List.length_pos_iff.mpr hw
    omega
  | succ m ih =>
    rw [List.range'_succ, List.flatMap_cons] at hsymbols
    rw [List.range'_succ, List.map_cons]
    have hfirst : firstWord lengths (k + 1) ≤ 2 * v := by
      rw [firstWord]
      omega
    have hlen := length_symbolsOfLength lengths (k + 1)
    have hsymbol {j s : Nat} (hj : j < lengths.count (k + 1)) :
        (PrefixCode.symbolsOfLength lengths (k + 1))[j]? = some s ↔
          s = symbols.getD (index + j) 0 := by
      have hget : symbols[index + j]? = (PrefixCode.symbolsOfLength lengths (k + 1))[j]? := by
        rw [← Array.getElem?_toList, ← List.getElem?_drop, hsymbols,
          List.getElem?_append_left (by omega)]
      rw [Array.getD_eq_getD_getElem?, hget, List.getElem?_eq_getElem (by omega), Option.some.injEq,
        Option.getD_some, eq_comm]
    have hrest : symbols.toList.drop (index + lengths.count (k + 1))
        = (List.range' (k + 1) m).flatMap fun i => PrefixCode.symbolsOfLength lengths (i + 1) := by
      rw [← List.drop_drop, hsymbols, ← hlen, List.drop_left]
    have hbit (bit : Nat) : Reads order
        (if 2 * v + bit < firstWord lengths (k + 1) + lengths.count (k + 1) then
          return symbols.getD (index + (2 * v + bit - firstWord lengths (k + 1))) 0
        else PrefixCode.decodeFrom symbols (2 * (2 * v + bit))
          (2 * (firstWord lengths (k + 1) + lengths.count (k + 1)))
          (index + lengths.count (k + 1))
          ((List.range' (k + 1) m).map fun i => lengths.count (i + 1)))
        fun _ s w =>
          if 2 * v + bit < firstWord lengths (k + 1) + lengths.count (k + 1) then
            s = symbols.getD (index + (2 * v + bit - firstWord lengths (k + 1))) 0 ∧ w = []
          else WordRest lengths (k + 1) (2 * v + bit) s w := by
      by_cases hlt : 2 * v + bit < firstWord lengths (k + 1) + lengths.count (k + 1)
      · simp only [if_pos hlt]
        exact .pure _
      · simp only [if_neg hlt]
        rw [← wordCount_succ]
        rw [← wordCount_succ] at hlt hrest
        exact ih (by omega) (Nat.le_of_not_lt hlt) hrest
    refine ((reads_take order (by decide)).bind hbit).congr fun p s w => ?_
    constructor
    · rintro ⟨bit, u, t, ⟨hu, rfl⟩, ht, rfl⟩
      obtain ⟨b, rfl⟩ := List.length_eq_one_iff.mp hu
      rw [order.number_singleton] at ht
      rw [List.singleton_append, wordRest_cons hv]
      by_cases hlt : 2 * v + b.toNat < firstWord lengths (k + 1) + lengths.count (k + 1)
      · rw [if_pos hlt] at ht ⊢
        exact ⟨ht.2, (hsymbol (by omega)).mpr ht.1⟩
      · rw [if_neg hlt] at ht ⊢
        exact ht
    · intro h
      obtain ⟨b, t, rfl⟩ := List.exists_cons_of_ne_nil h.1
      refine ⟨b.toNat, [b], t, ⟨rfl, (order.number_singleton b).symm⟩, ?_, rfl⟩
      rw [wordRest_cons hv] at h
      by_cases hlt : 2 * v + b.toNat < firstWord lengths (k + 1) + lengths.count (k + 1)
      · rw [if_pos hlt] at h ⊢
        exact ⟨(hsymbol (by omega)).mp h.2, h.1⟩
      · rw [if_neg hlt] at h ⊢
        exact h

/-- **Decoding** reads a code word, in either order of bits, and gives its symbol. -/
theorem reads_decode {lengths : List Nat} (hlong : ∀ l ∈ lengths, l ≤ 15) (order : BitOrder) :
    Reads order (PrefixCode.build lengths).decode fun _ s w => CodeWord lengths s w := by
  have hsymbols : (PrefixCode.build lengths).symbols.toList.drop 0
      = (List.range' 0 15).flatMap fun i => PrefixCode.symbolsOfLength lengths (i + 1) := by
    rw [PrefixCode.build, List.range_eq_range']
    rfl
  have hfrom : Reads order _ _ :=
    reads_decodeFrom hlong (Nat.zero_add 15) (Nat.le_refl 0) hsymbols
  unfold PrefixCode.decode
  rw [counts_build]
  refine hfrom.congr fun p s w => ?_
  rw [WordRest, CodeWord, zero_mul, Nat.zero_add, Nat.zero_add]

end Apfs
