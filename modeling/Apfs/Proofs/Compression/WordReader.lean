import Apfs.Compression.InPlace.WordReader
import Apfs.Proofs.Compression.Grammar

namespace Apfs.WordReader

/-!
# The reader with a word as its buffer is a cursor

The reader shifts and masks a word, and pulls and gives back bytes.  Between requests there is less
than a byte in the word, which is the number that a reader without a limit for its buffer has.  So
the reader stands at a bit of the data.

* `toReader` — the reader that keeps the same bits as a number; `toReader_pull` and `toReader_split`
  say that shifting and masking loses none of them.
* `atBit` — the reader that has read a number of bits; `take_atBit`, `skipToByte_atBit`,
  `takeBytes_atBit` — what it does.
* `StandsAt`, `IsCursorAt` — what it is to stand at a bit, and what each request does there.
* `isCursorAt_foldl_after` — after any requests the reader is a cursor.
-/

/-! ### Words as numbers -/

/-- The reader that keeps the same bits as a number. -/
def toReader (r : WordReader) : BitReader where
  data := r.data
  order := r.order
  next := r.next
  buffer := r.buffer.toNat
  buffered := r.buffered

theorem toReader_inj {r r' : WordReader} (h : r.toReader = r'.toReader) : r = r' := by
  obtain ⟨data, order, next, buffer, buffered⟩ := r
  obtain ⟨data', order', next', buffer', buffered'⟩ := r'
  simp only [toReader, BitReader.mk.injEq, UInt64.toNat_inj] at h
  obtain ⟨rfl, rfl, rfl, rfl, rfl⟩ := h
  rfl

/-- Small numbers as words. -/
theorem toNat_toUInt64 {n : Nat} (hn : n < 2 ^ 64) : n.toUInt64.toNat = n :=
  (UInt64.toNat_ofNat').trans (Nat.mod_eq_of_lt hn)

theorem toNat_shiftLeft {x : UInt64} {n k : Nat} (hx : x.toNat < 2 ^ k) (hn : n < 64)
    (hk : k + n ≤ 64) : (x <<< n.toUInt64).toNat = x.toNat <<< n := by
  have hlt : x.toNat <<< n < 2 ^ 64 := by
    rw [Nat.shiftLeft_eq]
    calc x.toNat * 2 ^ n < 2 ^ k * 2 ^ n := Nat.mul_lt_mul_of_pos_right hx (Nat.two_pow_pos n)
      _ = 2 ^ (k + n) := (pow_add 2 k n).symm
      _ ≤ 2 ^ 64 := Nat.pow_le_pow_right (by decide) hk
  rw [UInt64.toNat_shiftLeft, toNat_toUInt64 (by omega), Nat.mod_eq_of_lt hn, Nat.mod_eq_of_lt hlt]

theorem toNat_shiftRight (x : UInt64) {n : Nat} (hn : n < 64) :
    (x >>> n.toUInt64).toNat = x.toNat >>> n := by
  rw [UInt64.toNat_shiftRight, toNat_toUInt64 (by omega), Nat.mod_eq_of_lt hn]

theorem toNat_mask {n : Nat} (hn : n < 64) : (mask n).toNat = 2 ^ n - 1 := by
  have hone : ((1 : UInt64) <<< n.toUInt64).toNat = 2 ^ n := by
    rw [toNat_shiftLeft (k := 1) (by decide) hn (by omega), Nat.shiftLeft_eq]
    exact one_mul _
  have hpos := Nat.two_pow_pos n
  rw [mask, UInt64.toNat_sub_of_le, hone]
  · rfl
  · rw [UInt64.le_iff_toNat_le, hone]
    exact hpos

/-- Masking keeps the low bits. -/
theorem toNat_and_mask (x : UInt64) {n : Nat} (hn : n < 64) :
    (x &&& mask n).toNat = x.toNat % 2 ^ n := by
  rw [UInt64.toNat_and, toNat_mask hn, Nat.and_two_pow_sub_one_eq_mod]

/-! ### The buffer -/

variable {r : WordReader} {n : Nat}

/-- Pulling a byte appends it to the number. -/
theorem toReader_pull (hr : r.buffer.toNat < 2 ^ r.buffered) (hroom : r.buffered ≤ 56) (b : UInt8) :
    (r.pull b).toReader = r.toReader.pull b := by
  obtain ⟨data, order, next, buffer, buffered⟩ := r
  have hb : b.toUInt64.toNat < 2 ^ 8 := b.toNat_lt
  dsimp only at hr hroom
  cases order
  · have hnumber : (buffer ||| b.toUInt64 <<< buffered.toUInt64).toNat
        = buffer.toNat + b.toNat <<< buffered := by
      rw [UInt64.toNat_or, toNat_shiftLeft hb (by omega) (by omega), Nat.or_comm,
        ← Nat.shiftLeft_add_eq_or_of_lt hr, Nat.add_comm]
      rfl
    simp only [toReader, pull, BitReader.pull, hnumber]
  · have hlt : buffer.toNat < 2 ^ 56 :=
      Nat.lt_of_lt_of_le hr (Nat.pow_le_pow_right (by decide) hroom)
    have hnumber : (buffer <<< 8 ||| b.toUInt64).toNat = buffer.toNat <<< 8 + b.toNat := by
      have hshift : (buffer <<< 8).toNat = buffer.toNat <<< 8 :=
        toNat_shiftLeft (n := 8) hlt (by decide) (by decide)
      rw [UInt64.toNat_or, hshift, ← Nat.shiftLeft_add_eq_or_of_lt hb]
      rfl
    simp only [toReader, pull, BitReader.pull, hnumber]

/-- Splitting takes the number apart. -/
theorem toReader_split (hr : r.buffer.toNat < 2 ^ r.buffered) (hbuffered : r.buffered < 64)
    (hn : n ≤ r.buffered) (hwide : n ≤ 32) :
    ((r.split n).1.toNat, (r.split n).2.toReader) = r.toReader.split n := by
  obtain ⟨data, order, next, buffer, buffered⟩ := r
  dsimp only at hr hbuffered hn
  have hsmall {x : UInt64} (hx : x.toNat < 2 ^ n) : x.toUInt32.toNat = x.toNat :=
    Nat.mod_eq_of_lt (Nat.lt_of_lt_of_le hx (Nat.pow_le_pow_right (by decide) hwide))
  cases order
  · have hvalue : (buffer &&& mask n).toUInt32.toNat = buffer.toNat % (1 <<< n) := by
      have hmask := toNat_and_mask buffer (n := n) (by omega)
      rw [hsmall, hmask, Nat.shiftLeft_eq, one_mul]
      rw [hmask]
      exact Nat.mod_lt _ (Nat.two_pow_pos n)
    have hrest := toNat_shiftRight buffer (n := n) (by omega)
    simp only [split, toReader, BitReader.split, hvalue, hrest]
  · have hlt : buffer.toNat >>> (buffered - n) < 2 ^ n := by
      rw [Nat.shiftRight_eq_div_pow, Nat.div_lt_iff_lt_mul (Nat.two_pow_pos _), ← pow_add]
      rwa [show n + (buffered - n) = buffered by omega]
    have hvalue : ((buffer >>> (buffered - n).toUInt64) &&& mask n).toUInt32.toNat
        = buffer.toNat >>> (buffered - n) := by
      have hmask := toNat_and_mask (buffer >>> (buffered - n).toUInt64) (n := n) (by omega)
      rw [toNat_shiftRight buffer (by omega), Nat.mod_eq_of_lt hlt] at hmask
      rw [hsmall (by rw [hmask]; exact hlt), hmask]
    have hrest : (buffer &&& mask (buffered - n)).toNat
        = buffer.toNat % (1 <<< (buffered - n)) := by
      rw [toNat_and_mask buffer (by omega), Nat.shiftLeft_eq, one_mul]
    simp only [split, toReader, BitReader.split, hvalue, hrest]

/-! ### Places in a stream -/

variable (data : ByteArray) (order : BitOrder)

/-- The bits that a reader holds, as a number, fit into as many bits. -/
theorem buffer_lt {p k : Nat} (hr : r.toReader = .holding data order p k) :
    r.buffer.toNat < 2 ^ r.buffered := by
  have hbuffer : r.buffer.toNat = order.number (((order.stream data).take (8 * k)).drop p) :=
    congrArg BitReader.buffer hr
  have hbuffered : r.buffered = 8 * k - p := congrArg BitReader.buffered hr
  rw [hbuffer, hbuffered]
  refine Nat.lt_of_lt_of_le (order.number_lt _) (Nat.pow_le_pow_right (by decide) ?_)
  rw [List.length_drop, List.length_take]
  omega

/-- Refilling pulls the bytes that a request needs, and does not run out of bytes. -/
theorem refill_of_toReader {p k : Nat} (hr : r.toReader = .holding data order p k) (hp : p ≤ 8 * k)
    (hk : k ≤ data.size) (hn : p + n ≤ 8 * data.size) (hwide : n ≤ 32) :
    ∃ r', refill n r = .ok () r' ∧
      r'.toReader = .holding data order p (max k ((p + n + 7) / 8)) := by
  induction hgap : data.size - k generalizing k r with
  | zero =>
    have hbuffered : r.buffered = 8 * k - p := congrArg BitReader.buffered hr
    refine ⟨r, ?_, ?_⟩
    · rw [refill, if_neg (by omega)]
    · rw [hr, Nat.max_eq_left (by omega)]
  | succ gap ih =>
    have hbuffered : r.buffered = 8 * k - p := congrArg BitReader.buffered hr
    have hnext : r.next = k := congrArg BitReader.next hr
    have hdata : r.data = data := congrArg BitReader.data hr
    by_cases hneeded : r.buffered < n
    · have hlt : k < data.size := by omega
      have hin : r.next < r.data.size := by
        rw [hdata, hnext]
        exact hlt
      have hget : r.data[r.next] = data[k] := by
        simp only [hdata, hnext]
      have hpull : (r.pull data[k]).toReader = .holding data order p (k + 1) := by
        rw [toReader_pull (buffer_lt data order hr) (by omega), hr,
          BitReader.pull_holding data order hp hlt]
      obtain ⟨r', hrefill, hr'⟩ := ih hpull (by omega) (by omega) (by omega)
      refine ⟨r', ?_, ?_⟩
      · rw [refill, if_pos hneeded, dif_pos hin, hget]
        exact hrefill
      · rw [hr']
        congr 1
        omega
    · refine ⟨r, ?_, ?_⟩
      · rw [refill, if_neg hneeded]
      · rw [hr, Nat.max_eq_left (by omega)]

/-- The reader that has read `p` bits, and no byte that it has not begun with. -/
def atBit (p : Nat) : WordReader where
  data := data
  order := order
  next := (p + 7) / 8
  buffer := (BitReader.atBit data order p).buffer.toUInt64
  buffered := 8 * ((p + 7) / 8) - p

theorem toReader_atBit (p : Nat) : (atBit data order p).toReader = .atBit data order p := by
  have hlt : (BitReader.atBit data order p).buffer < 2 ^ 64 := by
    refine Nat.lt_of_lt_of_le (order.number_lt _) (Nat.pow_le_pow_right (by decide) ?_)
    rw [List.length_drop, List.length_take]
    omega
  rw [toReader, atBit, toNat_toUInt64 hlt]
  rfl

theorem eq_atBit_iff {p : Nat} : r = atBit data order p ↔ r.toReader = .atBit data order p :=
  ⟨fun h => h ▸ toReader_atBit data order p,
    fun h => toReader_inj (h.trans (toReader_atBit data order p).symm)⟩

theorem ofBytes_eq_atBit : ofBytes data order = atBit data order 0 := by
  rw [eq_atBit_iff, ← BitReader.ofBytes_eq_atBit]
  rfl

theorem remaining_atBit {p : Nat} (hp : p ≤ 8 * data.size) :
    (atBit data order p).remaining = 8 * data.size - p :=
  BitReader.remaining_atBit data order hp

theorem cursor_atBit (p : Nat) : (atBit data order p).cursor = p := by
  rw [cursor, atBit]
  dsimp only
  omega

/-! ### Reading -/

/-- **Reading bits.**  The next bits are read as a number, if they are there. -/
theorem take_atBit {p : Nat} (hn : n ≤ 32) (hp : p + n ≤ 8 * data.size) :
    take n (atBit data order p)
      = .ok (order.number (((order.stream data).drop p).take n)).toUInt32
        (atBit data order (p + n)) := by
  by_cases hzero : n = 0
  · have hempty : order.number [] = 0 := by
      cases order <;> rfl
    rw [hzero, List.take_zero, hempty, Nat.add_zero]
    rfl
  · have hnext : (p + n + 7) / 8 ≤ data.size := by omega
    have hr := toReader_atBit data order p
    obtain ⟨r', hrefill, hr'⟩ := refill_of_toReader data order (n := n) hr
      (by omega) (by omega) hp hn
    rw [Nat.max_eq_right (by omega)] at hr'
    have hbuffered : r'.buffered = 8 * ((p + n + 7) / 8) - p := congrArg BitReader.buffered hr'
    have hsplit := toReader_split (n := n) (buffer_lt data order hr') (by omega) (by omega) hn
    rw [hr', BitReader.split_holding data order (by omega) hnext, Prod.mk.injEq] at hsplit
    have hvalue : (split n r').1
        = (order.number (((order.stream data).drop p).take n)).toUInt32 := by
      rw [← hsplit.1]
      exact (UInt32.ofNat_toNat).symm
    have hrest : (split n r').2 = atBit data order (p + n) := (eq_atBit_iff ..).mpr hsplit.2
    have hremaining := remaining_atBit data order (p := p) (by omega)
    have hle : (atBit data order p).next ≤ (atBit data order p).data.size := by
      show (p + 7) / 8 ≤ data.size
      omega
    unfold take
    rw [if_neg (by omega), if_neg hzero, bind_of_get, expect_of hle, pure_bind, if_neg (by omega),
      bind_of_ok hrefill, bind_of_get, expect_of (by omega), pure_bind]
    show EStateM.Result.ok (split n r').1 (split n r').2 = _
    rw [hvalue, hrest]

/-- Bits that are not there cannot be read, and nothing is read then. -/
theorem take_atBit_of_lt {p : Nat} (hn : n ≤ 32) (hp : p ≤ 8 * data.size)
    (hlt : 8 * data.size < p + n) :
    take n (atBit data order p)
      = .error (.failed (.bitsExhausted n (8 * data.size - p))) (atBit data order p) := by
  have hremaining := remaining_atBit data order hp
  have hle : (atBit data order p).next ≤ (atBit data order p).data.size := by
    show (p + 7) / 8 ≤ data.size
    omega
  unfold take
  rw [if_neg (by omega), if_neg (by omega), bind_of_get, expect_of hle, pure_bind,
    if_pos (by omega), hremaining]
  rfl

/-- More than 32 bits at a time are refused, and nothing is read then. -/
theorem take_of_lt (hn : 32 < n) (r : WordReader) :
    take n r = .error (.failed (.argument .bitCount)) r := by
  unfold take
  rw [if_pos hn]
  rfl

/-- Skipping empties a buffer that holds less than a byte. -/
theorem skipToByte_of_lt (hr : r.buffer.toNat < 2 ^ r.buffered) (hpart : r.buffered < 8) :
    r.skipToByte = { r with buffered := 0, buffer := 0 } := by
  obtain ⟨data, order, next, buffer, buffered⟩ := r
  dsimp only at hr hpart
  by_cases hzero : buffered = 0
  · subst hzero
    have hbuffer : buffer = 0 := UInt64.toNat_inj.mp (Nat.lt_one_iff.mp hr)
    rw [hbuffer]
    rfl
  · have hmod : buffered % 8 = buffered := Nat.mod_eq_of_lt hpart
    have hlow : buffer >>> buffered.toUInt64 = 0 := by
      apply UInt64.toNat_inj.mp
      rw [toNat_shiftRight buffer (by omega), Nat.shiftRight_eq_div_pow, Nat.div_eq_of_lt hr]
      rfl
    have hhigh : buffer &&& mask 0 = 0 := by
      apply UInt64.toNat_inj.mp
      rw [toNat_and_mask buffer (by decide), pow_zero, Nat.mod_one]
      rfl
    unfold skipToByte
    dsimp only
    rw [hmod, if_neg hzero, Nat.sub_self, hlow, hhigh]
    cases order <;> rfl

/-- Skipping leads to the next byte boundary. -/
theorem skipToByte_atBit (p : Nat) :
    (atBit data order p).skipToByte = atBit data order (8 * ((p + 7) / 8)) := by
  have hr := toReader_atBit data order p
  have hbuffered : (atBit data order p).buffered = 8 * ((p + 7) / 8) - p := rfl
  rw [eq_atBit_iff, ← BitReader.skipToByte_atBit, ← hr,
    skipToByte_of_lt (buffer_lt data order hr) (by omega)]
  rfl

/-- At a byte boundary the buffer is empty. -/
theorem atBit_boundary (k : Nat) : atBit data order (8 * k) = { data, order, next := k } := by
  have hnext : (8 * k + 7) / 8 = k := by omega
  have hlt := buffer_lt data order (toReader_atBit data order (8 * k))
  have hbuffered : (atBit data order (8 * k)).buffered = 0 := by
    show 8 * ((8 * k + 7) / 8) - 8 * k = 0
    omega
  rw [hbuffered] at hlt
  have hbuffer : (atBit data order (8 * k)).buffer = 0 :=
    UInt64.toNat_inj.mp (Nat.lt_one_iff.mp hlt)
  calc atBit data order (8 * k)
      = { data, order, next := (8 * k + 7) / 8, buffer := (atBit data order (8 * k)).buffer,
          buffered := (atBit data order (8 * k)).buffered } := rfl
    _ = { data, order, next := k } := by rw [hnext, hbuffer, hbuffered]

/-- Before bytes are read, the reader is taken to the boundary. -/
theorem takeBytes_eq {p : Nat} (hp : p ≤ 8 * data.size) :
    takeBytes n (atBit data order p)
      = match Bytes.slice? data ((p + 7) / 8) n with
        | some bytes => .ok bytes (atBit data order (8 * ((p + 7) / 8 + n)))
        | none => .error (.failed (.bitsExhausted (min (8 * n) BitReader.requestLimit)
            (8 * data.size - 8 * ((p + 7) / 8)))) (atBit data order (8 * ((p + 7) / 8))) := by
  generalize hk : (p + 7) / 8 = k
  have hle : k ≤ data.size := by omega
  have hrange : 0 / 8 ≤ k ∧ k ≤ data.size := ⟨Nat.zero_le k, hle⟩
  have hremaining := remaining_atBit data order (p := 8 * k) (by omega)
  rw [atBit_boundary] at hremaining
  unfold takeBytes
  rw [bind_of_modify, skipToByte_atBit, hk, atBit_boundary, atBit_boundary, bind_of_get,
    expect_of hrange, pure_bind]
  have hback : giveBack { data, order, next := k } = { data, order, next := k } := by
    simp [giveBack]
  rw [hback, hremaining]
  show (match Bytes.slice? data k n with
    | some bytes => _
    | none => _ : WordReading ByteArray) _ = _
  cases Bytes.slice? data k n with
  | some bytes => rfl
  | none => rfl

/-- **Reading bytes.**  The bytes after the next byte boundary are read, if they are there. -/
theorem takeBytes_atBit {p : Nat} (hp : (p + 7) / 8 + n ≤ data.size) :
    takeBytes n (atBit data order p)
      = .ok (data.extract ((p + 7) / 8) ((p + 7) / 8 + n))
        (atBit data order (8 * ((p + 7) / 8 + n))) := by
  rw [takeBytes_eq data order (by omega), Bytes.slice?, if_pos hp]

/-- Bytes that are not there cannot be read, and then the reader is at the boundary. -/
theorem takeBytes_atBit_of_lt {p : Nat} (hp : p ≤ 8 * data.size)
    (hlt : data.size < (p + 7) / 8 + n) :
    takeBytes n (atBit data order p)
      = .error (.failed (.bitsExhausted (min (8 * n) BitReader.requestLimit)
          (8 * data.size - 8 * ((p + 7) / 8))))
        (atBit data order (8 * ((p + 7) / 8))) := by
  rw [takeBytes_eq data order hp, Bytes.slice?, if_neg (by omega)]

/-! ### What is consumed -/

section

variable {σ α β : Type} {s s' : σ}

/-- A sequence of checked steps succeeds if both steps do. -/
theorem checked_bind_eq_ok_iff {x : EStateM Stop σ α} {f : α → EStateM Stop σ β} {b : β} :
    (x >>= f) s = .ok b s' ↔ ∃ a s₁, x s = .ok a s₁ ∧ f a s₁ = .ok b s' := by
  cases hx : x s with
  | ok a s₁ =>
    rw [bind_of_ok hx]
    simp
  | error e s₁ =>
    rw [bind_of_error hx]
    simp

/-- A condition that was checked holds. -/
theorem of_expect_eq_ok {c : Prop} [Decidable c] {b : Breach} {u : Unit}
    (h : (expect c b : EStateM Stop σ Unit) s = .ok u s') : c ∧ s' = s := by
  unfold expect at h
  split at h
  next hc =>
    cases h
    exact ⟨hc, rfl⟩
  next => cases h

/-- Differences and accesses leave the state alone. -/
theorem of_minus_eq_ok {a b d : Nat} (h : (minus a b : EStateM Stop σ Nat) s = .ok d s') :
    s' = s := by
  by_cases hle : b ≤ a
  · rw [minus_of_le hle] at h
    cases h
    rfl
  · rw [minus, if_neg hle] at h
    cases h

theorem of_readAt_eq_ok {a : Array α} {i : Nat} {x : α}
    (h : (readAt a i : EStateM Stop σ α) s = .ok x s') : s' = s := by
  unfold readAt at h
  cases hget : a[i]? with
  | some y =>
    rw [hget] at h
    cases h
    rfl
  | none =>
    rw [hget] at h
    cases h

end

/-- Refilling only moves bits to the buffer. -/
theorem remaining_refill {r' : WordReader} {u : Unit} (h : refill n r = .ok u r') :
    r'.remaining = r.remaining := by
  fun_induction refill n r with
  | case1 r hn hr ih =>
    rw [ih h]
    unfold remaining pull
    dsimp only
    omega
  | case2 => cases h
  | case3 =>
    cases h
    rfl

/-- Reading `n` bits consumes `n` bits, whatever the state of the reader. -/
theorem remaining_take {r' : WordReader} {v : UInt32} (h : take n r = .ok v r') :
    r'.remaining + n = r.remaining := by
  unfold take at h
  split at h
  · cases h
  split at h
  next hzero =>
    cases h
    rw [hzero, Nat.add_zero]
  rw [bind_of_get] at h
  obtain ⟨_, r₁, hnext, hrest⟩ := checked_bind_eq_ok_iff.mp h
  obtain ⟨-, rfl⟩ := of_expect_eq_ok hnext
  split at hrest
  · cases hrest
  obtain ⟨_, r₂, hrefill, hsplit⟩ := checked_bind_eq_ok_iff.mp hrest
  rw [bind_of_get] at hsplit
  obtain ⟨_, r₃, hheld, hresult⟩ := checked_bind_eq_ok_iff.mp hsplit
  obtain ⟨hle, rfl⟩ := of_expect_eq_ok hheld
  obtain ⟨-, rfl⟩ := EStateM.Result.ok.inj hresult
  rw [← remaining_refill hrefill]
  unfold remaining
  split
  all_goals
    dsimp only
    omega

/-! ### Requests -/

/-- The reader stands at bit `p` of the data: it has pulled the bytes up to the one that the bit
    before is in, and holds the bits of them from `p` on. -/
structure StandsAt (p : Nat) (r : WordReader) : Prop where
  data_eq : r.data = data
  order_eq : r.order = order
  cursor_eq : r.cursor = p
  cursor_le : p ≤ (order.stream data).length
  next_le : r.next ≤ data.size
  buffered_le : r.buffered ≤ 7
  buffered_le_next : r.buffered ≤ 8 * r.next
  buffer_eq : r.buffer.toNat = order.number (((order.stream data).take (8 * r.next)).drop p)
  remaining_eq : r.remaining = (order.stream data).length - p

theorem standsAt_atBit {p : Nat} (hp : p ≤ 8 * data.size) :
    StandsAt data order p (atBit data order p) where
  data_eq := rfl
  order_eq := rfl
  cursor_eq := cursor_atBit data order p
  cursor_le := by rwa [order.length_stream]
  next_le := by
    show (p + 7) / 8 ≤ data.size
    omega
  buffered_le := by
    show 8 * ((p + 7) / 8) - p ≤ 7
    omega
  buffered_le_next := Nat.sub_le _ _
  buffer_eq := congrArg BitReader.buffer (toReader_atBit data order p)
  remaining_eq := by rw [remaining_atBit data order hp, order.length_stream]

theorem StandsAt.le {p : Nat} (h : StandsAt data order p r) : p ≤ 8 * data.size :=
  h.cursor_le.trans_eq (order.length_stream data)

/-- A reader that stands at a bit is the one that has read the bits before. -/
theorem StandsAt.eq_atBit {p : Nat} (h : StandsAt data order p r) : r = atBit data order p := by
  have hcursor : 8 * r.next - r.buffered = p := h.cursor_eq
  have hbuffered := h.buffered_le
  have hheld := h.buffered_le_next
  have hnext : r.next = (p + 7) / 8 := by omega
  have hcount : r.buffered = 8 * ((p + 7) / 8) - p := by omega
  rw [eq_atBit_iff, toReader, BitReader.atBit, BitReader.holding, h.data_eq, h.order_eq,
    h.buffer_eq, hnext, hcount]

/-- A request leads from a bit to a bit. -/
theorem exists_after_atBit {p : Nat} (hp : p ≤ 8 * data.size) (request : BitRequest) :
    ∃ q ≤ 8 * data.size, request.after (atBit data order p) = atBit data order q := by
  unfold BitRequest.after
  cases request with
  | take n =>
    dsimp only
    by_cases hwide : 32 < n
    · exact ⟨p, hp, by rw [take_of_lt hwide]⟩
    · by_cases hn : p + n ≤ 8 * data.size
      · exact ⟨p + n, hn, by rw [take_atBit data order (by omega) hn]⟩
      · exact ⟨p, hp, by rw [take_atBit_of_lt data order (by omega) hp (by omega)]⟩
  | skipToByte => exact ⟨8 * ((p + 7) / 8), by omega, skipToByte_atBit data order p⟩
  | takeBytes n =>
    dsimp only
    by_cases hn : (p + 7) / 8 + n ≤ data.size
    · exact ⟨8 * ((p + 7) / 8 + n), by omega, by rw [takeBytes_atBit data order hn]⟩
    · exact ⟨8 * ((p + 7) / 8), by omega,
        by rw [takeBytes_atBit_of_lt data order hp (by omega)]⟩

/-- Requests lead from a bit to a bit. -/
theorem exists_foldl_after_atBit (requests : List BitRequest) {p : Nat} (hp : p ≤ 8 * data.size) :
    ∃ q ≤ 8 * data.size,
      requests.foldl BitRequest.after (atBit data order p) = atBit data order q := by
  induction requests generalizing p with
  | nil => exact ⟨p, hp, rfl⟩
  | cons request requests ih =>
    obtain ⟨q, hq, hafter⟩ := exists_after_atBit data order hp request
    rw [List.foldl_cons, hafter]
    exact ih hq

/-- At most 32 bits stand for a number that a word can hold. -/
theorem toNat_number {bits : List Bool} (h : bits.length ≤ 32) :
    (order.number bits).toUInt32.toNat = order.number bits :=
  UInt32.toNat_ofNat_of_lt'
    (Nat.lt_of_lt_of_le (order.number_lt bits) (Nat.pow_le_pow_right (by decide) h))

/-- The number of some bits that stand for `u`, followed by others that stand for `v`. -/
def joined (a b u v : Nat) : Nat :=
  match order with
  | .lowFirst => u + v <<< a
  | .highFirst => u <<< b + v

/-- Bits that are read in two steps are those that are read in one, as a number, too. -/
theorem take_add_atBit {a b p : Nat} (hwide : a + b ≤ 32) (hp : p + (a + b) ≤ 8 * data.size) :
    ∃ u v w r₁ r₂, take a (atBit data order p) = .ok u r₁ ∧ take b r₁ = .ok v r₂ ∧
      take (a + b) (atBit data order p) = .ok w r₂ ∧
      w.toNat = joined order a b u.toNat v.toNat := by
  have hsplit : ((order.stream data).drop p).take (a + b)
      = ((order.stream data).drop p).take a ++ ((order.stream data).drop (p + a)).take b := by
    rw [List.take_add, List.drop_drop]
  have ha : (((order.stream data).drop p).take a).length = a := by
    rw [List.length_take, List.length_drop, order.length_stream]
    omega
  have hb : (((order.stream data).drop (p + a)).take b).length = b := by
    rw [List.length_take, List.length_drop, order.length_stream]
    omega
  have hboth := take_atBit data order hwide hp
  rw [← Nat.add_assoc, hsplit] at hboth
  refine ⟨_, _, _, _, _, take_atBit data order (by omega) (by omega),
    take_atBit data order (by omega) (by omega), hboth, ?_⟩
  rw [toNat_number order (by rw [List.length_append, ha, hb]; exact hwide),
    toNat_number order (by rw [ha]; omega), toNat_number order (by rw [hb]; omega),
    order.number_append, ha, hb]
  cases order <;> rfl

/-- What a reader at bit `p` is and does.  It reads the bits that come next, all of them or none.
    In front of whole bytes it goes on to the next byte boundary, also if the bytes are not
    there. -/
structure IsCursorAt (p : Nat) (r : WordReader) : Prop where
  standsAt : StandsAt data order p r
  /-- More than 32 bits at a time are refused. -/
  take_of_wide : ∀ n, 32 < n → take n r = .error (.failed (.argument .bitCount)) r
  /-- Bits that are not there are refused. -/
  take_of_short : ∀ n ≤ 32, (order.stream data).length < p + n →
    take n r = .error (.failed (.bitsExhausted n ((order.stream data).length - p))) r
  /-- The bits that come next are read as a number. -/
  take_of_le : ∀ n ≤ 32, p + n ≤ (order.stream data).length →
    ∃ v r', take n r = .ok v r' ∧ v.toNat = order.number (((order.stream data).drop p).take n) ∧
      StandsAt data order (p + n) r'
  /-- Skipping leads to the next multiple of 8. -/
  skipToByte : StandsAt data order (8 * ((p + 7) / 8)) r.skipToByte
  /-- The bytes after the next multiple of 8 are read. -/
  takeBytes_of_le : ∀ n, 8 * ((p + 7) / 8) + 8 * n ≤ (order.stream data).length →
    ∃ r', takeBytes n r = .ok (data.extract ((p + 7) / 8) ((p + 7) / 8 + n)) r' ∧
      StandsAt data order (8 * ((p + 7) / 8) + 8 * n) r'
  /-- Bytes that are not there are refused. -/
  takeBytes_of_short : ∀ n, (order.stream data).length < 8 * ((p + 7) / 8) + 8 * n →
    ∃ r', takeBytes n r = .error (.failed (.bitsExhausted (min (8 * n) BitReader.requestLimit)
        ((order.stream data).length - 8 * ((p + 7) / 8)))) r' ∧
      StandsAt data order (8 * ((p + 7) / 8)) r'
  /-- Two reads give the same bits as one, and lead to the same place. -/
  take_add_of_le : ∀ a b, a + b ≤ 32 → p + (a + b) ≤ (order.stream data).length →
    ∃ u v w r₁ r₂, take a r = .ok u r₁ ∧ take b r₁ = .ok v r₂ ∧ take (a + b) r = .ok w r₂ ∧
      w.toNat = joined order a b u.toNat v.toNat
  /-- If the bits are not there for one read, they are not there for two. -/
  take_add_of_short : ∀ a b, a + b ≤ 32 → (order.stream data).length < p + (a + b) →
    ∃ e r', (do return (← take a, ← take b) : WordReading (UInt32 × UInt32)) r = .error e r'

theorem isCursorAt_atBit {p : Nat} (hp : p ≤ 8 * data.size) :
    IsCursorAt data order p (atBit data order p) := by
  have hlength := order.length_stream data
  constructor
  case standsAt => exact standsAt_atBit data order hp
  case take_of_wide => exact fun n hn => take_of_lt hn _
  case take_of_short =>
    intro n hn hlt
    rw [hlength] at hlt ⊢
    exact take_atBit_of_lt data order hn hp hlt
  case take_of_le =>
    intro n hn hle
    rw [hlength] at hle
    refine ⟨_, _, take_atBit data order hn hle, ?_, standsAt_atBit data order hle⟩
    exact toNat_number order (by rw [List.length_take]; omega)
  case skipToByte =>
    rw [skipToByte_atBit]
    exact standsAt_atBit data order (by omega)
  case takeBytes_of_le =>
    intro n hle
    rw [← Nat.mul_add]
    exact ⟨_, takeBytes_atBit data order (by omega), standsAt_atBit data order (by omega)⟩
  case takeBytes_of_short =>
    intro n hlt
    rw [hlength] at hlt ⊢
    exact ⟨_, takeBytes_atBit_of_lt data order hp (by omega), standsAt_atBit data order (by omega)⟩
  case take_add_of_le =>
    intro a b hwide hle
    rw [hlength] at hle
    exact take_add_atBit data order hwide hle
  case take_add_of_short =>
    intro a b hwide hlt
    rw [hlength] at hlt
    by_cases ha : p + a ≤ 8 * data.size
    · have hb := take_atBit_of_lt data order (n := b) (by omega) ha (by omega)
      exact ⟨_, _, (bind_of_ok (take_atBit data order (by omega) ha) _).trans (bind_of_error hb _)⟩
    · exact ⟨_, _, bind_of_error (take_atBit_of_lt data order (by omega) hp (by omega)) _⟩

/-- **The reader is a cursor over the bits of the data**, after any requests, of which some may have
    failed. -/
theorem isCursorAt_foldl_after (requests : List BitRequest) :
    IsCursorAt data order (requests.foldl BitRequest.after (ofBytes data order)).cursor
      (requests.foldl BitRequest.after (ofBytes data order)) := by
  obtain ⟨p, hp, hr⟩ := exists_foldl_after_atBit data order requests (Nat.zero_le _)
  rw [← ofBytes_eq_atBit] at hr
  rw [hr, cursor_atBit]
  exact isCursorAt_atBit data order hp

end Apfs.WordReader
