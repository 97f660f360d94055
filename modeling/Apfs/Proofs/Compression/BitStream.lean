import Apfs.Compression.BitReader
import Mathlib

namespace Apfs

/-!
# The bit reader as a cursor over a list of bits

A bit reader buffers the bytes that it has begun to read.  Between requests its state is
determined by the number of bits read, and what it reads are the bits from there on.

* `ofLowBits`, `lowBits` — numbers and their bits.
* `BitOrder.stream` — the bits of a byte string, in the order in which they are read.
* `BitReader.atBit` — the reader that has read a number of bits.
* `take_atBit`, `skipToByte_atBit`, `takeBytes_atBit` — what the reader does.
-/

/-! ### Numbers and bits -/

/-- The number whose bits, least significant first, are the given ones. -/
def ofLowBits : List Bool → Nat
  | [] => 0
  | b :: rest => b.toNat + 2 * ofLowBits rest

/-- The low `width` bits of `n`, least significant first. -/
def lowBits : (width n : Nat) → List Bool
  | 0, _ => []
  | width + 1, n => decide (n % 2 = 1) :: lowBits width (n / 2)

@[simp] theorem length_lowBits (width n : Nat) : (lowBits width n).length = width := by
  induction width generalizing n with
  | zero => rfl
  | succ width ih => rw [lowBits, List.length_cons, ih]

/-- The low bits of a number stand for its remainder. -/
theorem ofLowBits_lowBits (width n : Nat) : ofLowBits (lowBits width n) = n % 2 ^ width := by
  induction width generalizing n with
  | zero => rw [lowBits, ofLowBits, pow_zero, Nat.mod_one]
  | succ width ih =>
    have hbit : (decide (n % 2 = 1)).toNat = n % 2 := by
      rcases Nat.mod_two_eq_zero_or_one n with h | h
      all_goals simp [h]
    rw [lowBits, ofLowBits, ih, hbit, pow_succ', Nat.mod_mul]

theorem ofLowBits_lt (bits : List Bool) : ofLowBits bits < 2 ^ bits.length := by
  induction bits with
  | nil => exact Nat.one_pos
  | cons b rest ih =>
    have hb : b.toNat ≤ 1 := Bool.toNat_le b
    rw [ofLowBits, List.length_cons, pow_succ']
    omega

theorem ofLowBits_append (a b : List Bool) :
    ofLowBits (a ++ b) = ofLowBits a + 2 ^ a.length * ofLowBits b := by
  induction a with
  | nil => rw [List.nil_append, ofLowBits, List.length_nil, pow_zero, one_mul, zero_add]
  | cons x a ih =>
    rw [List.cons_append, ofLowBits, ofLowBits, ih, List.length_cons]
    ring

/-- Bits are determined by their number, if it is known how many there are. -/
theorem ofLowBits_inj {a b : List Bool} (hlen : a.length = b.length)
    (h : ofLowBits a = ofLowBits b) : a = b := by
  induction a generalizing b with
  | nil => rw [List.eq_nil_of_length_eq_zero hlen.symm]
  | cons x a ih =>
    cases b with
    | nil => cases hlen
    | cons y b =>
      rw [ofLowBits, ofLowBits] at h
      have hxy : x = y ∧ ofLowBits a = ofLowBits b := by
        cases x <;> cases y <;> simp only [Bool.toNat_true, Bool.toNat_false] at h <;>
          first | omega | exact ⟨rfl, by omega⟩
      rw [hxy.1, ih (Nat.succ.inj hlen) hxy.2]

/-- Bits that stand for a number are its low bits. -/
theorem eq_lowBits_iff {width n : Nat} {bits : List Bool} :
    bits.length = width ∧ n = ofLowBits bits ↔ n < 2 ^ width ∧ bits = lowBits width n := by
  constructor
  · rintro ⟨rfl, rfl⟩
    refine ⟨ofLowBits_lt bits, ofLowBits_inj (length_lowBits ..).symm ?_⟩
    rw [ofLowBits_lowBits, Nat.mod_eq_of_lt (ofLowBits_lt bits)]
  · rintro ⟨hn, rfl⟩
    rw [ofLowBits_lowBits, Nat.mod_eq_of_lt hn]
    exact ⟨length_lowBits .., rfl⟩

/-! ### Streams of bits -/

namespace BitOrder

variable (order : BitOrder)

/-- The number that bits stand for, in the order in which they are read. -/
def number (bits : List Bool) : Nat :=
  match order with
  | .lowFirst => ofLowBits bits
  | .highFirst => ofLowBits bits.reverse

/-- The bits of a byte, in the order in which they are read. -/
def bits (b : UInt8) : List Bool :=
  match order with
  | .lowFirst => lowBits 8 b.toNat
  | .highFirst => (lowBits 8 b.toNat).reverse

/-- The bits of some bytes, in the order in which they are read. -/
def bitsOf (bytes : List UInt8) : List Bool := bytes.flatMap order.bits

/-- The bits of a byte string, in the order in which they are read. -/
def stream (data : ByteArray) : List Bool := order.bitsOf data.data.toList

@[simp] theorem length_bits (b : UInt8) : (order.bits b).length = 8 := by
  cases order
  · exact length_lowBits ..
  · exact (List.length_reverse ..).trans (length_lowBits ..)

@[simp] theorem length_bitsOf (bytes : List UInt8) :
    (order.bitsOf bytes).length = 8 * bytes.length := by
  induction bytes with
  | nil => rfl
  | cons b bytes ih =>
    rw [bitsOf, List.flatMap_cons, List.length_append, length_bits, List.length_cons]
    rw [bitsOf] at ih
    omega

@[simp] theorem length_stream (data : ByteArray) :
    (order.stream data).length = 8 * data.size := by
  rw [stream, length_bitsOf]
  rfl

/-- The bits of a byte stand for it. -/
theorem number_bits (b : UInt8) : order.number (order.bits b) = b.toNat := by
  have h : ofLowBits (lowBits 8 b.toNat) = b.toNat := by
    rw [ofLowBits_lowBits]
    exact Nat.mod_eq_of_lt b.toNat_lt
  cases order
  · exact h
  · rw [number, bits, List.reverse_reverse, h]

theorem number_lt (bits : List Bool) : order.number bits < 2 ^ bits.length := by
  cases order
  · exact ofLowBits_lt bits
  · rw [← List.length_reverse]
    exact ofLowBits_lt bits.reverse

/-- The number of two runs of bits, the first of which is read first. -/
theorem number_append (a b : List Bool) :
    order.number (a ++ b) = match order with
      | .lowFirst => order.number a + order.number b <<< a.length
      | .highFirst => order.number a <<< b.length + order.number b := by
  cases order
  · simp only [number]
    rw [ofLowBits_append, Nat.shiftLeft_eq, Nat.mul_comm]
  · simp only [number]
    rw [List.reverse_append, ofLowBits_append, List.length_reverse, Nat.shiftLeft_eq,
      Nat.mul_comm, Nat.add_comm]

/-- A single bit is a number in either order. -/
theorem number_singleton (b : Bool) : order.number [b] = b.toNat := by
  cases order <;> rfl

end BitOrder

/-! ### Places in a stream -/

section

variable (order : BitOrder) (data : ByteArray)

/-- The bits from a byte boundary on are those of the bytes from there on. -/
theorem drop_stream (k : Nat) :
    (order.stream data).drop (8 * k) = order.bitsOf (data.data.toList.drop k) := by
  rw [BitOrder.stream]
  generalize data.data.toList = bytes
  induction k generalizing bytes with
  | zero => rfl
  | succ k ih =>
    cases bytes with
    | nil => rw [BitOrder.bitsOf, List.flatMap_nil, List.drop_nil, List.drop_nil]; rfl
    | cons b bytes =>
      have hlen : (order.bits b).length = 8 := order.length_bits b
      rw [BitOrder.bitsOf, List.flatMap_cons, List.drop_succ_cons, ← ih,
        show 8 * (k + 1) = (order.bits b).length + 8 * k by omega, List.drop_append]
      simp [BitOrder.bitsOf]

/-- The bits up to a byte boundary are those of the bytes up to there. -/
theorem take_stream (k : Nat) :
    (order.stream data).take (8 * k) = order.bitsOf (data.data.toList.take k) := by
  rw [BitOrder.stream]
  generalize data.data.toList = bytes
  induction k generalizing bytes with
  | zero => rfl
  | succ k ih =>
    cases bytes with
    | nil => rw [BitOrder.bitsOf, List.flatMap_nil, List.take_nil, List.take_nil]; rfl
    | cons b bytes =>
      have hlen : (order.bits b).length = 8 := order.length_bits b
      rw [BitOrder.bitsOf, List.flatMap_cons, List.take_succ_cons, BitOrder.bitsOf,
        List.flatMap_cons, show 8 * (k + 1) = (order.bits b).length + 8 * k by omega,
        List.take_length_add_append]
      exact congrArg _ (ih bytes)

/-- Up to the next byte boundary there are the bits of one byte more. -/
theorem take_stream_succ {k : Nat} (hk : k < data.size) :
    (order.stream data).take (8 * (k + 1))
      = (order.stream data).take (8 * k) ++ order.bits data[k] := by
  have hk' : k < data.data.toList.length := hk
  rw [take_stream, take_stream, List.take_succ_eq_append_getElem hk', BitOrder.bitsOf,
    List.flatMap_append, List.flatMap_singleton]
  rfl

end

/-! ### The state of a reader -/

namespace BitReader

/-- A reader that has read `p` bits, and begun with the bytes before the one at `k`. -/
def holding (data : ByteArray) (order : BitOrder) (p k : Nat) : BitReader where
  data := data
  order := order
  next := k
  buffer := order.number (((order.stream data).take (8 * k)).drop p)
  buffered := 8 * k - p

/-- The reader that has read `p` bits, and no byte that it has not begun with. -/
def atBit (data : ByteArray) (order : BitOrder) (p : Nat) : BitReader :=
  holding data order p ((p + 7) / 8)

variable (data : ByteArray) (order : BitOrder)

/-- A reader starts at the first bit. -/
theorem ofBytes_eq_atBit : ofBytes data order = atBit data order 0 := by
  cases order <;> rfl

theorem remaining_holding {p k : Nat} (hp : p ≤ 8 * k) (hk : k ≤ data.size) :
    (holding data order p k).remaining = 8 * data.size - p := by
  rw [remaining, holding]
  dsimp only
  omega

theorem remaining_atBit {p : Nat} (hp : p ≤ 8 * data.size) :
    (atBit data order p).remaining = 8 * data.size - p :=
  remaining_holding data order (by omega) (by omega)

/-- Pulling a byte appends its bits. -/
theorem pull_holding {p k : Nat} (hp : p ≤ 8 * k) (hk : k < data.size) :
    (holding data order p k).pull data[k] = holding data order p (k + 1) := by
  have hlen : ((order.stream data).take (8 * k)).length = 8 * k := by
    rw [List.length_take, order.length_stream]
    omega
  have hbits : ((order.stream data).take (8 * (k + 1))).drop p
      = ((order.stream data).take (8 * k)).drop p ++ order.bits data[k] := by
    rw [take_stream_succ order data hk, List.drop_append_of_le_length (by omega)]
  have hdrop : (((order.stream data).take (8 * k)).drop p).length = 8 * k - p := by
    rw [List.length_drop, hlen]
  have hnumber := order.number_bits data[k]
  have hbuffer : ((holding data order p k).pull data[k]).buffer
      = order.number (((order.stream data).take (8 * (k + 1))).drop p) := by
    rw [hbits, order.number_append, hnumber, hdrop, order.length_bits]
    cases order <;> rfl
  have hbuffered : 8 * k - p + 8 = 8 * (k + 1) - p := by omega
  calc (holding data order p k).pull data[k]
      = { data, order, next := k + 1, buffered := 8 * k - p + 8
          buffer := ((holding data order p k).pull data[k]).buffer } := rfl
    _ = holding data order p (k + 1) := by rw [hbuffer, hbuffered, holding]

/-- Refilling pulls the bytes that a request needs, and no more. -/
theorem refill_holding {n p k : Nat} (hp : p ≤ 8 * k) (hk : k ≤ data.size)
    (hn : p + n ≤ 8 * data.size) :
    (holding data order p k).refill n = holding data order p (max k ((p + n + 7) / 8)) := by
  induction hgap : data.size - k generalizing k with
  | zero =>
    rw [refill, dif_neg]
    · congr 1
      omega
    · show ¬(8 * k - p < n ∧ k < data.size)
      omega
  | succ gap ih =>
    by_cases hneeded : 8 * k - p < n
    · have hlt : k < data.size := by omega
      rw [refill, dif_pos ⟨hneeded, hlt⟩]
      show ((holding data order p k).pull data[k]).refill n = _
      rw [pull_holding data order hp hlt, ih (by omega) (by omega) (by omega)]
      congr 1
      omega
    · rw [refill, dif_neg]
      · congr 1
        omega
      · exact fun h => hneeded h.1

/-- A number that is put together from low and high bits can be taken apart again. -/
theorem split_shiftLeft {x n : Nat} (hx : x < 2 ^ n) (y : Nat) :
    (x + y <<< n) % (1 <<< n) = x ∧ (x + y <<< n) >>> n = y := by
  rw [Nat.shiftLeft_eq, Nat.shiftLeft_eq, Nat.shiftRight_eq_div_pow, one_mul]
  constructor
  · rw [Nat.add_mul_mod_self_right, Nat.mod_eq_of_lt hx]
  · rw [Nat.add_mul_div_right _ _ (Nat.two_pow_pos n), Nat.div_eq_of_lt hx, zero_add]

/-- Splitting gives the first bits that are held as a number. -/
theorem split_holding {n p k : Nat} (hn : p + n ≤ 8 * k) (hk : k ≤ data.size) :
    (holding data order p k).split n
      = (order.number (((order.stream data).drop p).take n), holding data order (p + n) k) := by
  have hbits : ((order.stream data).take (8 * k)).drop p
      = ((order.stream data).drop p).take n
        ++ ((order.stream data).take (8 * k)).drop (p + n) := by
    rw [← List.take_append_drop n (((order.stream data).take (8 * k)).drop p), List.drop_drop,
      List.drop_take, List.take_take, Nat.min_eq_left (by omega)]
  have hfirst : (((order.stream data).drop p).take n).length = n := by
    rw [List.length_take, List.length_drop, order.length_stream]
    omega
  have hrest : (((order.stream data).take (8 * k)).drop (p + n)).length = 8 * k - (p + n) := by
    rw [List.length_drop, List.length_take, order.length_stream]
    omega
  have hbuffered : 8 * k - p - n = 8 * k - (p + n) := by omega
  have hlow := order.number_lt (((order.stream data).drop p).take n)
  have hhigh := order.number_lt (((order.stream data).take (8 * k)).drop (p + n))
  rw [hfirst] at hlow
  rw [hrest] at hhigh
  unfold split holding
  rw [hbits, order.number_append, hfirst, hrest]
  cases order
  · obtain ⟨hmod, hshift⟩ := split_shiftLeft hlow (BitOrder.lowFirst.number
      (((BitOrder.lowFirst.stream data).take (8 * k)).drop (p + n)))
    simp only [hbuffered, hmod, hshift]
  · obtain ⟨hmod, hshift⟩ := split_shiftLeft hhigh (BitOrder.highFirst.number
      (((BitOrder.highFirst.stream data).drop p).take n))
    rw [Nat.add_comm] at hmod hshift
    simp only [hbuffered, hmod, hshift]

/-! ### Reading -/

/-- **Reading bits.**  The next bits are read as a number, if they are there. -/
theorem take_atBit {n p : Nat} (hn : n ≤ 32) (hp : p + n ≤ 8 * data.size) :
    take n (atBit data order p)
      = .ok (order.number (((order.stream data).drop p).take n)) (atBit data order (p + n)) := by
  have hremaining := remaining_atBit data order (p := p) (by omega)
  unfold take
  rw [if_neg (by omega), if_neg (by omega), atBit, refill_holding data order (by omega) (by omega) hp,
    Nat.max_eq_right (by omega), split_holding data order (by omega) (by omega)]
  rfl

/-- Bits that are not there cannot be read, and nothing is read then. -/
theorem take_atBit_of_lt {n p : Nat} (hn : n ≤ 32) (hp : p ≤ 8 * data.size)
    (hlt : 8 * data.size < p + n) :
    take n (atBit data order p)
      = .error (.bitsExhausted n (8 * data.size - p)) (atBit data order p) := by
  have hremaining := remaining_atBit data order hp
  unfold take
  rw [if_neg (by omega), if_pos (by omega), hremaining]

/-- Skipping leads to the next byte boundary. -/
theorem skipToByte_atBit (p : Nat) :
    (atBit data order p).skipToByte = atBit data order (8 * ((p + 7) / 8)) := by
  have hnext : (8 * ((p + 7) / 8) + 7) / 8 = (p + 7) / 8 := by omega
  have hbits : ((order.stream data).take (8 * ((p + 7) / 8))).drop (8 * ((p + 7) / 8)) = [] := by
    rw [List.drop_eq_nil_iff, List.length_take]
    omega
  unfold skipToByte atBit holding
  rw [hnext, hbits, Nat.sub_self]
  cases order <;> rfl

/-- **Reading bytes.**  The bytes after the next byte boundary are read, if they are there. -/
theorem takeBytes_atBit {n p : Nat} (hp : (p + 7) / 8 + n ≤ data.size) :
    takeBytes n (atBit data order p)
      = .ok (data.extract ((p + 7) / 8) ((p + 7) / 8 + n))
        (atBit data order (8 * ((p + 7) / 8 + n))) := by
  have hnext : (8 * ((p + 7) / 8) + 7) / 8 = (p + 7) / 8 := by omega
  have hnext' : (8 * ((p + 7) / 8 + n) + 7) / 8 = (p + 7) / 8 + n := by omega
  have hbits (k : Nat) : ((order.stream data).take (8 * k)).drop (8 * k) = [] := by
    rw [List.drop_eq_nil_iff, List.length_take]
    omega
  unfold takeBytes
  rw [skipToByte_atBit]
  unfold atBit holding
  rw [hnext, hnext', hbits, hbits, Nat.sub_self, Nat.sub_self]
  dsimp only
  rw [Bytes.slice?, if_pos hp]

/-- Bytes that are not there cannot be read. -/
theorem takeBytes_atBit_of_lt {n p : Nat} (hp : data.size < (p + 7) / 8 + n) :
    ∃ e r, takeBytes n (atBit data order p) = .error e r := by
  unfold takeBytes
  rw [skipToByte_atBit]
  unfold atBit holding
  dsimp only
  rw [Bytes.slice?, if_neg (by omega)]
  exact ⟨_, _, rfl⟩

theorem takeBytes_eq_ok_iff {n p : Nat} {bytes : ByteArray} {r : BitReader} :
    takeBytes n (atBit data order p) = .ok bytes r ↔ (p + 7) / 8 + n ≤ data.size ∧
      bytes = data.extract ((p + 7) / 8) ((p + 7) / 8 + n) ∧
      r = atBit data order (8 * ((p + 7) / 8 + n)) := by
  constructor
  · intro h
    by_cases hp : (p + 7) / 8 + n ≤ data.size
    · rw [takeBytes_atBit data order hp] at h
      obtain ⟨rfl, rfl⟩ := EStateM.Result.ok.inj h
      exact ⟨hp, rfl, rfl⟩
    · obtain ⟨e, r', hfault⟩ := takeBytes_atBit_of_lt data order (Nat.lt_of_not_le hp)
      rw [hfault] at h
      cases h
  · rintro ⟨hp, rfl, rfl⟩
    exact takeBytes_atBit data order hp

end BitReader

end Apfs
