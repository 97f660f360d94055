import Apfs.Checksum.Crc32c
import Apfs.Proofs.Bytes.Folds

namespace Apfs.Checksum

/-!
# The CRC-32C is a remainder

The table takes eight division steps at a time.  It may, because a division step is linear: what
the steps make of a register is what they make of its low byte and of the rest of it.  The register
is a polynomial over the field of two elements, with its lowest bit at the highest power, and a
division step multiplies it by `X` modulo the generator.

* `crcShift_xor` — a division step is linear.
* `serialByte`, `serialCrc` — a byte fed into the register and shifted out bit by bit, and the
  register after a buffer.
* `crcByte_eq` — one table entry does the eight steps of a byte.
* `reflected`, `crcGenerator`, `messageFrom` — registers, the generator and buffers as polynomials.
* `reflected_crc32c` — the register after a buffer is a remainder modulo the generator.
* `crc32c_eq_serial_and_xor` — the checksum is the remainder of a bit-serial division, and linear.
-/

/-! ### Division steps -/

/-- The lowest bit decides whether the polynomial is subtracted. -/
theorem crcShift_eq (crc : UInt32) :
    crcShift crc = (if crc.toNat.testBit 0 then crcPolynomial else 0) ^^^ (crc >>> 1) := by
  have hbit : crc &&& 1 = 0 ↔ crc.toNat.testBit 0 = false := by
    rw [← UInt32.toNat_inj, UInt32.toNat_and]
    simp [Nat.and_one_is_mod]
  rw [crcShift]
  cases h : crc.toNat.testBit 0 <;> simp [hbit, h]

/-- A division step is linear. -/
theorem crcShift_xor (a b : UInt32) : crcShift (a ^^^ b) = crcShift a ^^^ crcShift b := by
  -- Where the polynomial is subtracted from both, the two cancel, and so do the lowest bits.
  have hchoice : (if (a ^^^ b).toNat.testBit 0 then crcPolynomial else 0)
      = (if a.toNat.testBit 0 then crcPolynomial else 0)
        ^^^ (if b.toNat.testBit 0 then crcPolynomial else 0) := by
    rw [UInt32.toNat_xor, Nat.testBit_xor]
    cases a.toNat.testBit 0 <;> cases b.toNat.testBit 0 <;> simp
  rw [crcShift_eq, crcShift_eq, crcShift_eq, hchoice, UInt32.shiftRight_xor]
  ac_rfl

theorem repeat_crcShift_xor (n : Nat) (a b : UInt32) :
    Nat.repeat crcShift n (a ^^^ b) = Nat.repeat crcShift n a ^^^ Nat.repeat crcShift n b := by
  induction n with
  | zero => rfl
  | succ n ih => simp only [Nat.repeat, ih, crcShift_xor]

/-- Nothing is subtracted while the bits that are shifted out are clear. -/
theorem toNat_repeat_crcShift {crc : UInt32} {n : Nat} (h : 2 ^ n ∣ crc.toNat) :
    (Nat.repeat crcShift n crc).toNat = crc.toNat / 2 ^ n := by
  induction n with
  | zero => simp [Nat.repeat]
  | succ n ih =>
    have hn := ih ((pow_dvd_pow 2 n.le_succ).trans h)
    have hbit : (Nat.repeat crcShift n crc).toNat.testBit 0 = false := by
      obtain ⟨k, hk⟩ := h
      rw [hn, hk, pow_succ, mul_assoc, Nat.mul_div_cancel_left _ (Nat.two_pow_pos n)]
      simp
    show (crcShift (Nat.repeat crcShift n crc)).toNat = _
    rw [crcShift_eq, hbit, if_neg Bool.false_ne_true, UInt32.zero_xor, UInt32.toNat_shiftRight, hn,
      pow_succ, ← Nat.div_div_eq_div_mul]
    rfl

/-! ### The table -/

/-- The register after a byte that is fed into its low end and shifted out bit by bit. -/
def serialByte (crc : UInt32) (b : UInt8) : UInt32 := Nat.repeat crcShift 8 (crc ^^^ b.toUInt32)

/-- The register after the bytes of `data`, bit by bit. -/
def serialCrc (data : ByteArray) (initial : UInt32) : UInt32 := data.foldl serialByte initial

/-- The number of a register whose low byte is cleared. -/
theorem toNat_highPart (crc : UInt32) : ((crc >>> 8) <<< 8).toNat = crc.toNat / 2 ^ 8 * 2 ^ 8 := by
  have hcrc := crc.toNat_lt
  have hshift : (8 : UInt32).toNat % 32 = 8 := rfl
  rw [UInt32.toNat_shiftLeft, UInt32.toNat_shiftRight, hshift, Nat.shiftLeft_eq,
    Nat.shiftRight_eq_div_pow, Nat.mod_eq_of_lt]
  omega

/-- A register is its low byte and the rest of it. -/
theorem eq_low_xor_high (crc : UInt32) : crc = crc.toUInt8.toUInt32 ^^^ ((crc >>> 8) <<< 8) := by
  apply UInt32.toNat_inj.mp
  apply Nat.eq_of_testBit_eq
  intro i
  rw [UInt32.toNat_xor, toNat_highPart, UInt8.toNat_toUInt32, UInt32.toNat_toUInt8,
    Nat.testBit_xor, Nat.testBit_mod_two_pow, Nat.testBit_mul_two_pow, Nat.testBit_div_two_pow]
  by_cases h : i < 8
  · simp [h, Nat.not_le_of_lt h]
  · simp [h, Nat.le_of_not_lt h]

/-- Eight steps are those from the low byte, with the rest of the register moved down. -/
theorem crcShiftByte_eq (crc : UInt32) :
    crcShiftByte crc = crcShiftByte crc.toUInt8.toUInt32 ^^^ (crc >>> 8) := by
  have hhigh : crcShiftByte ((crc >>> 8) <<< 8) = crc >>> 8 := by
    apply UInt32.toNat_inj.mp
    rw [crcShiftByte, toNat_repeat_crcShift (by rw [toNat_highPart]; exact Dvd.intro_left _ rfl),
      toNat_highPart, Nat.mul_div_cancel _ (by decide)]
    rw [UInt32.toNat_shiftRight, Nat.shiftRight_eq_div_pow]
    rfl
  conv_lhs => rw [eq_low_xor_high crc]
  rw [crcShiftByte, repeat_crcShift_xor]
  exact congrArg _ hhigh

/-- **The table** does the eight steps of a byte at once. -/
theorem crcByte_eq (crc : UInt32) (b : UInt8) : crcByte crc b = serialByte crc b := by
  have hb : b.toUInt32 >>> 8 = 0 := by
    apply UInt32.toNat_inj.mp
    rw [UInt32.toNat_shiftRight, UInt8.toNat_toUInt32, Nat.shiftRight_eq_div_pow]
    exact Nat.div_eq_of_lt b.toNat_lt
  show _ = crcShiftByte (crc ^^^ b.toUInt32)
  rw [crcShiftByte_eq, UInt32.toUInt8_xor, UInt8.toUInt8_toUInt32, UInt32.shiftRight_xor, hb,
    UInt32.xor_zero]
  simp only [crcByte, crcTable, Vector.get_eq_getElem, Vector.getElem_ofFn,
    UInt32.ofNat_uInt8ToNat]

/-- A byte is fed in linearly. -/
theorem crcByte_xor (s t : UInt32) (b c : UInt8) :
    crcByte (s ^^^ t) (b ^^^ c) = crcByte s b ^^^ crcByte t c := by
  simp only [crcByte_eq, serialByte, UInt8.toUInt32_xor, ← repeat_crcShift_xor]
  congr 1
  ac_rfl

/-! ### Buffers -/

/-- The bytes of two buffers, added without carry. -/
def xorBytes (a b : ByteArray) : ByteArray := ⟨Array.zipWith (· ^^^ ·) a.data b.data⟩

theorem size_xorBytes {a b : ByteArray} (h : a.size = b.size) : (xorBytes a b).size = a.size := by
  show (Array.zipWith (· ^^^ ·) a.data b.data).size = a.data.size
  rw [Array.size_zipWith]
  exact min_eq_left h.le

theorem get_xorBytes {a b : ByteArray} (h : a.size = b.size) {i : Nat} (hi : i < a.size) :
    Bytes.get (xorBytes a b) i = Bytes.get a i ^^^ Bytes.get b i := by
  rw [Bytes.get_of_lt (by rwa [size_xorBytes h]), Bytes.get_of_lt hi, Bytes.get_of_lt (h ▸ hi)]
  exact Array.getElem_zipWith _

/-- From any offset on, the register depends linearly on the bytes and on where it starts. -/
theorem foldl_crcByte_xor {a b : ByteArray} (h : a.size = b.size) (s t : UInt32) {i : Nat}
    (hi : i ≤ a.size) :
    (xorBytes a b).foldl crcByte (s ^^^ t) i a.size
      = a.foldl crcByte s i a.size ^^^ b.foldl crcByte t i a.size := by
  have hsize := size_xorBytes h
  induction hgap : a.size - i generalizing s t i with
  | zero =>
    rw [Bytes.foldl_of_le _ _ (by omega) hsize.ge, Bytes.foldl_of_le _ _ (by omega) le_rfl,
      Bytes.foldl_of_le _ _ (by omega) h.le]
  | succ gap ih =>
    rw [Bytes.foldl_of_lt _ _ (by omega) hsize.ge, Bytes.foldl_of_lt _ _ (by omega) le_rfl,
      Bytes.foldl_of_lt crcByte t (by omega) h.le, get_xorBytes h (by omega), crcByte_xor]
    exact ih _ _ (by omega) (by omega)

/-! ### Polynomials -/

open Polynomial

/-- The polynomial whose coefficients are the low `n` bits of a number, lowest bit first. -/
noncomputable def reflected (n x : Nat) : (ZMod 2)[X] :=
  ∑ i ∈ Finset.range n, if x.testBit i then X ^ (n - 1 - i) else 0

/-- The polynomial by which the division divides. -/
noncomputable def crcGenerator : (ZMod 2)[X] := X ^ 32 + reflected 32 0x82f63b78

/-- The bytes of `data` from offset `i` on, one after the other, each with its lowest bit first. -/
noncomputable def messageFrom (data : ByteArray) (i : Nat) : (ZMod 2)[X] :=
  ∑ j ∈ Finset.Ico i data.size,
    X ^ (8 * (data.size - (j + 1))) * reflected 8 (Bytes.get data j).toNat

theorem reflected_xor (n x y : Nat) : reflected n (x ^^^ y) = reflected n x + reflected n y := by
  simp only [reflected, ← Finset.sum_add_distrib, Nat.testBit_xor]
  apply Finset.sum_congr rfl
  intro i _
  cases x.testBit i <;> cases y.testBit i <;> simp [CharTwo.add_self_eq_zero]

/-- The lowest bit is the coefficient of the highest power. -/
theorem reflected_succ (n x : Nat) :
    reflected (n + 1) x = (if x.testBit 0 then X ^ n else 0) + reflected n (x / 2) := by
  rw [reflected, Finset.sum_range_succ', add_comm]
  congr 1
  apply Finset.sum_congr rfl
  intro i _
  rw [← Nat.testBit_succ]
  congr 2
  omega

/-- A clear bit on top makes room at the lowest power. -/
theorem reflected_succ_of_lt {n x : Nat} (h : x < 2 ^ n) :
    reflected (n + 1) x = X * reflected n x := by
  rw [reflected, Finset.sum_range_succ, Nat.testBit_lt_two_pow h, reflected, Finset.mul_sum]
  simp only [Bool.false_eq_true, if_false, add_zero]
  apply Finset.sum_congr rfl
  intro i hi
  rw [Finset.mem_range] at hi
  rw [mul_ite, mul_zero, ← pow_succ']
  congr 2
  omega

/-- A byte at the low end of a register stands at the highest powers. -/
theorem reflected_byte (b : UInt8) : reflected 32 b.toNat = X ^ 24 * reflected 8 b.toNat := by
  have hb := b.toNat_lt
  have hroom (n : Nat) : reflected (8 + n) b.toNat = X ^ n * reflected 8 b.toNat := by
    induction n with
    | zero => simp
    | succ n ih =>
      rw [← Nat.add_assoc, reflected_succ_of_lt, ih, pow_succ', mul_assoc]
      exact hb.trans_le (Nat.pow_le_pow_right (by decide) (Nat.le_add_right 8 n))
  exact hroom 24

theorem degree_reflected_lt (n x : Nat) : (reflected n x).degree < n := by
  rw [← mem_degreeLT]
  apply Submodule.sum_mem
  intro i hi
  rw [Finset.mem_range] at hi
  split
  · rw [mem_degreeLT, degree_X_pow]
    exact_mod_cast (by omega : n - 1 - i < n)
  · exact Submodule.zero_mem _

theorem monic_crcGenerator : crcGenerator.Monic :=
  monic_X_pow_add (degree_reflected_lt 32 _)

theorem degree_crcGenerator : crcGenerator.degree = (32 : Nat) := by
  rw [crcGenerator, degree_add_eq_left_of_degree_lt, degree_X_pow]
  rw [degree_X_pow]
  exact degree_reflected_lt 32 _

/-- **A division step** multiplies the register by `X`, up to a multiple of the generator. -/
theorem reflected_crcShift (crc : UInt32) :
    X * reflected 32 crc.toNat = reflected 32 (crcShift crc).toNat
      + if crc.toNat.testBit 0 then crcGenerator else 0 := by
  have hshift : (crc >>> 1).toNat = crc.toNat / 2 := UInt32.toNat_shiftRight crc 1
  rw [← reflected_succ_of_lt crc.toNat_lt, reflected_succ, crcShift_eq, UInt32.toNat_xor,
    reflected_xor, hshift]
  cases crc.toNat.testBit 0 with
  | false => simp [reflected]
  | true =>
    simp only [if_true]
    -- The low part of the generator is subtracted and comes back with it.
    have hcancel : reflected 32 crcPolynomial.toNat + reflected 32 0x82f63b78 = 0 :=
      CharTwo.add_self_eq_zero _
    rw [crcGenerator]
    linear_combination -hcancel

/-- Registers are compared modulo the generator. -/
noncomputable abbrev residue : (ZMod 2)[X] →+* AdjoinRoot crcGenerator := AdjoinRoot.mk crcGenerator

theorem residue_repeat_crcShift (n : Nat) (crc : UInt32) :
    residue (reflected 32 (Nat.repeat crcShift n crc).toNat)
      = residue (X ^ n * reflected 32 crc.toNat) := by
  induction n with
  | zero => simp [Nat.repeat]
  | succ n ih =>
    have hstep := congrArg residue (reflected_crcShift (Nat.repeat crcShift n crc))
    have hgenerator : residue (if (Nat.repeat crcShift n crc).toNat.testBit 0 then crcGenerator
        else 0) = 0 := by
      split
      · exact AdjoinRoot.mk_self
      · exact map_zero residue
    rw [map_add, hgenerator, add_zero, map_mul, ih, ← map_mul, ← mul_assoc, ← pow_succ'] at hstep
    exact hstep.symm

/-- A byte is appended to what was divided so far. -/
theorem residue_crcByte (crc : UInt32) (b : UInt8) :
    residue (reflected 32 (crcByte crc b).toNat)
      = residue (X ^ 8 * reflected 32 crc.toNat + X ^ 32 * reflected 8 b.toNat) := by
  rw [crcByte_eq, serialByte, residue_repeat_crcShift, UInt32.toNat_xor, reflected_xor,
    UInt8.toNat_toUInt32, reflected_byte, mul_add, ← mul_assoc, ← pow_add]

theorem messageFrom_of_lt {data : ByteArray} {i : Nat} (h : i < data.size) :
    messageFrom data i = X ^ (8 * (data.size - (i + 1))) * reflected 8 (Bytes.get data i).toNat
      + messageFrom data (i + 1) :=
  Finset.sum_eq_sum_Ico_succ_bot h _

/-- **All bytes.**  By induction on the bytes that are left. -/
theorem residue_foldl_crcByte (data : ByteArray) (crc : UInt32) {i : Nat} (hi : i ≤ data.size) :
    residue (reflected 32 (data.foldl crcByte crc i data.size).toNat)
      = residue (X ^ (8 * (data.size - i)) * reflected 32 crc.toNat
        + X ^ 32 * messageFrom data i) := by
  induction hgap : data.size - i generalizing crc i with
  | zero =>
    rw [Bytes.foldl_of_le _ _ (by omega) le_rfl, messageFrom, Finset.Ico_eq_empty (by omega)]
    simp
  | succ gap ih =>
    have hlt : i < data.size := by omega
    have hrest : data.size - (i + 1) = gap := by omega
    rw [Bytes.foldl_of_lt _ _ hlt le_rfl, ih _ hlt hrest, map_add, map_mul, residue_crcByte,
      ← map_mul, ← map_add, messageFrom_of_lt hlt, hrest]
    refine congrArg residue ?_
    ring

/-- **The checksum is a remainder:** that of the buffer, moved up by the length of the register,
    with the initial register in front of it. -/
theorem reflected_crc32c (data : ByteArray) (initial : UInt32) :
    reflected 32 (crc32c data initial).toNat
      = (X ^ (8 * data.size) * reflected 32 initial.toNat + X ^ 32 * messageFrom data 0)
        %ₘ crcGenerator := by
  have hresidue := residue_foldl_crcByte data initial (Nat.zero_le _)
  rw [Nat.sub_zero, AdjoinRoot.mk_eq_mk] at hresidue
  have hself : reflected 32 (crc32c data initial).toNat %ₘ crcGenerator
      = reflected 32 (crc32c data initial).toNat := by
    rw [modByMonic_eq_self_iff monic_crcGenerator, degree_crcGenerator]
    exact degree_reflected_lt 32 _
  rw [← hself]
  exact modByMonic_eq_of_dvd_sub monic_crcGenerator hresidue

/-- **The table-driven checksum is that of a bit-serial division.**  It is the remainder of the
    buffer modulo the generator, and linear in the buffer and the initial register. -/
theorem crc32c_eq_serial_and_xor (data : ByteArray) (initial : UInt32) :
    crc32c data initial = serialCrc data initial ∧
    reflected 32 (crc32c data initial).toNat
      = (X ^ (8 * data.size) * reflected 32 initial.toNat + X ^ 32 * messageFrom data 0)
        %ₘ crcGenerator ∧
    ∀ (other : ByteArray) (initial' : UInt32), data.size = other.size →
      crc32c (xorBytes data other) (initial ^^^ initial')
        = crc32c data initial ^^^ crc32c other initial' := by
  refine ⟨?_, reflected_crc32c data initial, fun other initial' hsize => ?_⟩
  · rw [crc32c, serialCrc, funext₂ crcByte_eq]
  · rw [crc32c, crc32c, crc32c, size_xorBytes hsize, ← hsize]
    exact foldl_crcByte_xor hsize initial initial' (Nat.zero_le _)

/-- Two buffers of three bytes that differ in two of them. -/
theorem crc32c_xor_threeBytes :
    let data : ByteArray := ⟨#[0x61, 0x62, 0x63]⟩
    let other : ByteArray := ⟨#[0x00, 0xff, 0x80]⟩
    data.size = other.size ∧
      crc32c ⟨#[0x61, 0x9d, 0xe3]⟩ 0xffffff00 = crc32c data 0xffffffff ^^^ crc32c other 0xff := by
  intro data other
  have hxor : xorBytes data other = ⟨#[0x61, 0x9d, 0xe3]⟩ := by cbv
  have hinitial : (0xffffffff ^^^ 0xff : UInt32) = 0xffffff00 := rfl
  rw [← hxor, ← hinitial]
  exact ⟨rfl, (crc32c_eq_serial_and_xor data 0xffffffff).2.2 other 0xff rfl⟩

end Apfs.Checksum
